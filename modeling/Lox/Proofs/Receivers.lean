import Lox.Proofs.Keeping

/-! # What `this` and `super` stand for

`this` and `super` are lexical, and fixed (`Session.receivers_fixed`).  At every evaluation of `this` in a
session, the scope chain belongs to an activation of the innermost method around the code, and `this` is the
instance that the method was bound to.  At every evaluation of `super`, the method is looked for from the
class on that the superclass expression yielded when the class of this method was made. -/

namespace Lox

/-! ### What a step runs -/

/-- The sites of what is run. -/
def Code.sites : Code → List Site
  | program body => sitesOf body
  | expression e => e.sites []

/-- What analysis has seen to in a job. -/
structure Job.Accepted (next : NodeId) (job : Job) : Prop where
  formed : ∀ site ∈ job.code.sites, site.Formed
  allowed : violations job.code.sites = []
  distances : job.distances = entries job.code.sites
  within : Within next job.next (siteIds job.code.sites)

/-- Distances that are found are the entries, and no site violates a rule. -/
theorem entries_of_ok {sites : List Site} {ds : Distances}
    (h : (if violations sites = [] then .ok (entries sites) else .error (violations sites) :
      Except (List ScopeError) Distances) = .ok ds) : violations sites = [] ∧ ds = entries sites := by
  split at h
  next hv => exact ⟨hv, (Except.ok.inj h).symm⟩
  next => exact nomatch h

theorem Step.job_accepted {st : Step} {next : NodeId} {job : Job} (h : st.job next = .ok job) :
    job.Accepted next := by
  cases st with
  | run source =>
      obtain ⟨p, last, ha, rfl⟩ := job_run h
      obtain ⟨body, hreads, hnum, hr⟩ := analyze_stages ha
      have hformed := Stmt.formedAll_number hreads.formed next
      have hwithin := sitesOf_within body next
      rw [hnum] at hformed hwithin
      rw [resolveProgram_eq] at hr
      obtain ⟨hv, hd⟩ := entries_of_ok hr
      exact ⟨hformed.sites .top, hv, hd, hwithin⟩
  | evaluate source =>
      obtain ⟨e, last, ha, rfl⟩ := job_evaluate h
      obtain ⟨plain, hreads, hnum, hr⟩ := analyzeExpression_stages ha
      have hspelled := Expr.spelled_number hreads.spelled next
      have hwithin := Expr.number_within plain next
      rw [hnum] at hspelled hwithin
      rw [resolveExpression_eq] at hr
      obtain ⟨hv, hd⟩ := entries_of_ok hr
      refine ⟨hspelled.sites .top, hv, hd, ?_⟩
      unfold Code.sites Expr.sites
      rw [siteIds_uses]
      exact hwithin

/-- The sites of the program that a step runs, when it is accepted. -/
def Step.sites (next : NodeId) (st : Step) : List Site :=
  match st.job next with
  | .ok job => job.code.sites
  | .error _ => []

/-- The sites of the programs that steps run. -/
def Session.sitesDuring (settings : Settings) (s : Session) : List Step → List Site
  | [] => []
  | st :: rest => st.sites s.nextNode ++ (s.step settings st).2.sitesDuring settings rest

/-- The history of steps of a session, which begins with the moments of the past. -/
def Session.historyDuring (settings : Settings) (s : Session) (past : History) : List Step → History
  | [] => past
  | st :: rest => (s.step settings st).2.historyDuring settings (s.history settings past st) rest

/-! ### One step -/

section steps

variable {S : Settings} {sites new : List Site} {past : History}

/-- Sites whose uses are new to the table. -/
theorem Settled.learn {T : Std.HashMap NodeId Nat} (h : Settled sites T) {first last : NodeId}
    (hold : Within 0 first (siteIds sites)) (hnew : Within first last (siteIds new))
    (hfresh : ∀ i, first ≤ i → T[i]? = none) (hformed : ∀ site ∈ new, site.Formed)
    (hallowed : violations new = []) : Settled (sites ++ new) (T.insertMany (entries new)) where
  formed := List.forall_mem_append.mpr ⟨h.formed, hformed⟩
  allowed := List.forall_mem_append.mpr ⟨h.allowed, List.filterMap_eq_nil_iff.mp hallowed⟩
  recorded := by
    have hid {site : Site} {sites : List Site} (hs : site ∈ sites) {ref : Reference NodeId}
        (hr : site.reference? = some ref) : ref.id ∈ siteIds sites :=
      List.mem_filterMap.mpr ⟨site, hs, by rw [hr, Option.map_some]⟩
    refine List.forall_mem_append.mpr ⟨fun site hs ref hr => ?_, fun site hs ref hr => ?_⟩
    · rw [getElem?_entries_of_notMem, h.recorded site hs ref hr]
      exact fun hm => absurd (hold.range _ (hid hs hr)).2 (Nat.not_lt.mpr (hnew.range _ hm).1)
    · exact getElem?_entries hnew.nodup hs hr (hfresh _ (hnew.range _ (hid hs hr)).1)

/-- What holds of a session with given sites, after the moments of the past. -/
structure Session.Settled (S : Settings) (sites : List Site) (past : History) (s : Session) : Prop where
  ids : Within 0 s.nextNode (siteIds sites)
  sound : ∃ us, s.Sound .byDistance us
  lexical : Lexical S sites past s.machine

/-- The machine that a job begins with. -/
theorem Session.Settled.prepared {s : Session} (h : s.Settled S sites past) {job : Job}
    (hjob : job.Accepted s.nextNode) : Lexical S (sites ++ job.code.sites) past (s.prepared job) := by
  obtain ⟨us, hsound⟩ := h.sound
  have hsub : sites ⊆ sites ++ job.code.sites := List.subset_append_left _ _
  have hsettled := h.lexical.settled.learn h.ids hjob.within hsound.fresh hjob.formed hjob.allowed
  rw [← hjob.distances] at hsettled
  exact ⟨hsettled, h.lexical.known.mono hsub (List.Subset.refl _), h.lexical.fills,
    h.lexical.lawful.imp fun _ _ hk => hk.mono hsub⟩

/-- A job that is run keeps what holds of the machine. -/
theorem Code.trace_lexical (hS : S.lookup = .byDistance) {code : Code} (hsites : code.sites ⊆ sites)
    {m : Machine} (henv : m.env = [globalFrame]) (h : Lexical S sites past m) :
    Lexical S sites (endState (code.trace S ⟨m, past⟩)).past (endState (code.trace S ⟨m, past⟩)).machine := by
  have hk := keeps_evaluation hS sites S.fuel
  have hkeeps : Keeps S sites past [globalFrame] (code.trace S) fun _ _ => True := by
    cases code with
    | program body => exact (hk.runAll body .top hsites).bind fun _ _ _ _ => .pure fun _ _ => trivial
    | expression e => exact (hk.expr .top hsites).imp fun _ _ _ => trivial
  have hend := hkeeps ⟨m, past⟩ ⟨List.Subset.refl _, henv, h⟩
  cases hrun : code.trace S ⟨m, past⟩ <;> rw [hrun] at hend <;> exact hend.1.lexical

theorem Session.Settled.step (hS : S.lookup = .byDistance) {s : Session} (h : s.Settled S sites past)
    (st : Step) :
    (s.step S st).2.Settled S (sites ++ st.sites s.nextNode) (s.history S past st) := by
  obtain ⟨us, hsound⟩ := h.sound
  have hsound' := (Session.step_sound hS hsound st nofun).sound
  unfold Step.sites Session.history
  cases hjob : st.job s.nextNode with
  | error faults =>
      rw [Session.step_rejected_eq S hjob, List.append_nil]
      exact h
  | ok job =>
      have hacc := Step.job_accepted hjob
      rw [Session.step_eq S hjob, Code.endState_run S job.code ⟨s.prepared job, past⟩] at hsound' ⊢
      refine ⟨?_, ⟨_, hsound'⟩, Code.trace_lexical hS (List.subset_append_right _ _) hsound.env (h.prepared hacc)⟩
      rw [siteIds_append]
      exact h.ids.append hacc.within

/-- A session at its start. -/
theorem Session.start_settled (S : Settings) (sink : Sink) : (Session.start sink).Settled S [] [] where
  ids := .nil (Nat.le_refl 0)
  sound := ⟨[], Session.start_sound .byDistance sink⟩
  lexical := by
    have hempty : Heap.Known [] [] Heap.empty := by
      refine ⟨fun f n v hv => ?_, fun i n v hv => ?_⟩
      · cases f <;> simp [Heap.slots, Heap.empty] at hv
      · simp [Heap.field?, Heap.empty] at hv
    exact ⟨⟨List.forall_mem_nil _, List.forall_mem_nil _, List.forall_mem_nil _⟩,
      hempty.define globalFrame "clock" trivial, List.forall_mem_nil _, trivial⟩

theorem Session.Settled.during (hS : S.lookup = .byDistance) {s : Session} (h : s.Settled S sites past)
    (steps : List Step) :
    (siteIds (sites ++ s.sitesDuring S steps)).Nodup ∧
      Throughout (Moment.Lawful S (sites ++ s.sitesDuring S steps)) (s.historyDuring S past steps) := by
  induction steps generalizing s sites past with
  | nil =>
      rw [Session.sitesDuring, List.append_nil]
      exact ⟨h.ids.nodup, h.lexical.lawful⟩
  | cons st steps ih =>
      rw [Session.sitesDuring, ← List.append_assoc]
      exact ih (h.step hS st)

end steps

/-! ### Whole sessions -/

/-- `this` and `super` are lexical, and fixed.  The history of a session is that of the machines that it has,
and every evaluation of an expression is on record.  Consider any moment of it at which `this` or `super` is
evaluated.  The use stands at one site of the programs that were accepted, and the scope chain belongs to an
activation of the innermost method around this site.  `this` yields the instance that this activation is bound
to.  `super` looks for the method from the class on that the superclass expression yielded when the class of
the activation was made, and binds it to this instance; if there is none, the program fails at the line of the
method's name. -/
theorem Session.receivers_fixed (settings : Settings) (sink : Sink) (steps : List Step) :
    let S := { settings with lookup := .byDistance }
    let sites := (Session.start sink).sitesDuring S steps
    (siteIds sites).Nodup ∧
    (∀ (s : Session) past st job, st.job s.nextNode = .ok job →
      (s.step S st).2.machine = (endState (job.code.trace S ⟨s.prepared job, past⟩)).machine) ∧
    (∀ fuel e r, ∃ new, (endState (Traced.eval S (fuel + 1) e r)).past =
      new ++ ⟨r.machine, .evaluates e⟩ :: r.past) ∧
    ∀ late k early, (Session.start sink).historyDuring S [] steps = late ++ k :: early →
      (∀ ref, k.what = .evaluates (.this ref) →
        k.UsedIn sites early .this ref fun x => x.Yields S ref k.machine) ∧
      ∀ ref method, k.what = .evaluates (.super ref method) →
        k.UsedIn sites early .super ref fun x => x.Finds S ref method k.machine := by
  intro S sites
  obtain ⟨hids, hlawful⟩ := (Session.start_settled S sink).during rfl steps
  rw [List.nil_append] at hids hlawful
  refine ⟨hids, fun s past st job hjob => Session.machine_step S hjob past,
    fun fuel e r => Traced.eval_recorded S fuel e r, fun late k early hsplit => ?_⟩
  have hk := throughout_iff.mp hlawful late k early hsplit
  unfold Moment.Lawful at hk
  refine ⟨fun ref hwhat => ?_, fun ref method hwhat => ?_⟩
  · rw [hwhat] at hk
    exact hk
  · rw [hwhat] at hk
    exact hk

end Lox
