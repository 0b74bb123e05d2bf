import Lox.Proofs.OrderlyRuns

/-! # What declarations bind

Only declarations at the top level make globals (`Session.declarations_bind`).  A name that a step of a session adds
to the globals is one that a statement at the top level of its program declares, and was added when this statement
was run.  All other frames were made for one scope each, and bind names of this scope only.  No name is ever
removed. -/

namespace Lox

/-- The names that the statements at the top level of the program of a step declare, if the program is accepted. -/
def Step.declared (next : NodeId) : Step → List String
  | run source =>
    match analyze next source with
    | .ok (p, _) => (Stmt.declarations p.statements).map Lexeme.text
    | .error _ => []
  | evaluate _ => []

theorem Step.declared_eq (next : NodeId) (st : Step) :
    st.declared next = (Stmt.declarations (st.topLevel next)).map Lexeme.text := by
  unfold topLevel
  cases st with
  | run source =>
    unfold declared
    dsimp only
    cases hjob : (run source).job next with
    | ok job =>
      obtain ⟨p, last, ha, rfl⟩ := job_run hjob
      rw [ha]
      rfl
    | error faults =>
      rw [job_run_error hjob]
      rfl
  | evaluate source =>
    cases hjob : (evaluate source).job next with
    | ok job =>
      obtain ⟨e, last, -, rfl⟩ := job_evaluate hjob
      rfl
    | error faults => rfl

/-- A name that is declared at the top level is one of those that are declared there. -/
theorem Moment.Declares.mem {o : Outset} {k : Moment} {n : String} (h : k.Declares o n) :
    n ∈ (Stmt.declarations o.body).map Lexeme.text := by
  obtain ⟨-, s, hs, -, t, ht, rfl⟩ := h
  exact List.mem_map_of_mem (List.mem_filterMap.mpr ⟨s, hs, ht⟩)

/-- What is bound in a heap is bound in another one. -/
def Heap.Binds (h h' : Heap) : Prop := ∀ f n, h.binds f n = true → h'.binds f n = true

/-- Only declarations at the top level make globals.  Consider a step of a session, after any other steps, in any
setting and however it ends.

The names of the globals after it are those before it, and names that the statements at the top level of its program
declare.  At each moment of the step, and at its end, a global that was not there before the step was declared since
then, by a statement of the program that was run at the top level; every other frame was made at one moment, for one
scope, and binds names of that scope only: the names that a block declares, the parameters and names of a function,
the name `this` or the name `super`.  A name that is bound in a frame at any moment is bound there from then on. -/
theorem Session.declarations_bind (settings : Settings) (sink : Sink) (steps : List Step) (st : Step) :
    let s := ((Session.start sink).perform settings steps).2
    let past := (Session.start sink).historyDuring settings [] steps
    let next := (s.step settings st).2
    let whole := s.history settings past st
    (∀ n ∈ next.machine.globals, n ∈ s.machine.globals ∨ n ∈ st.declared s.nextNode) ∧
    (Framed (s.outset settings past st) whole next.machine.heap ∧
      ∀ late k early, whole = late ++ k :: early → Framed (s.outset settings past st) early k.machine.heap) ∧
    (s.machine.heap.Binds next.machine.heap ∧ (∀ k ∈ whole, k.machine.heap.Binds next.machine.heap) ∧
      ∀ late k early, whole = late ++ k :: early → ∀ j ∈ early, j.machine.heap.Binds k.machine.heap) ∧
    past <:+ whole ∧ ∀ job, st.job s.nextNode = .ok job →
      next.machine = (endState (job.code.trace settings ⟨s.prepared job, past⟩)).machine ∧
      whole = (endState (job.code.trace settings ⟨s.prepared job, past⟩)).past := by
  intro s past next whole
  obtain ⟨o, hS, hs⟩ := (Session.start_orderly settings sink).during rfl steps
  obtain ⟨hnext, hbefore⟩ := hs.step hS st
  have hmoment := throughout_iff.mp hnext.moments
  refine ⟨fun n hn => ?_, ⟨hnext.orderly.framed, fun late k early hsplit => (hmoment late k early hsplit).1.framed⟩,
    ⟨hbefore.heap.binds, fun k hk => (hnext.orderly.grown k hk).binds, fun late k early hsplit j hj => ?_⟩,
    hbefore.past, fun job hjob => ⟨machine_step settings hjob past, ?_⟩⟩
  · rcases hnext.orderly.framed.globals n (Machine.mem_globals.mp hn) with hold | ⟨k, -, hk⟩
    · exact .inl hold
    · rw [Step.declared_eq]
      exact .inr hk.mem
  · exact ((hmoment late k early hsplit).1.grown j hj).binds
  · change s.history settings past st = _
    unfold Session.history
    rw [hjob]

end Lox
