import Lox.Proofs.Hierarchies
import Lox.Proofs.Returns

/-! # Constructions

A call of a class makes a new instance, runs the nearest initializer on it, once and with the arguments of the call,
and yields the instance (`Moment.Constructs`).  An initializer that is called on its own yields the instance that it
is bound to, whatever it returns: the frame that it is bound in holds this instance for good
(`Session.constructions_yield`). -/

namespace Lox

open Traced

/-! ### Arguments -/

theorem Slots.define_new {slots : Slots} {n : String} (h : n ∉ slots.map Prod.fst) (v : Value) :
    slots.define n v = slots ++ [(n, v)] := by
  induction slots with
  | nil => rfl
  | cons p slots ih =>
    obtain ⟨hne, hslots⟩ := List.ne_and_not_mem_of_not_mem_cons h
    change (if p.1 = n then _ else _) = _
    rw [if_neg (Ne.symm hne), ih hslots]
    rfl

/-- Parameters of different names are bound to the arguments in order. -/
theorem bindParams_eq {params : List Lexeme} {values : List Value} (hn : (params.map Lexeme.text).Nodup) :
    bindParams params values = (params.map Lexeme.text).zip values := by
  have hstep : ∀ (params : List Lexeme) (values : List Value) (slots : Slots),
      (slots.map Prod.fst ++ params.map Lexeme.text).Nodup →
      (params.zip values).foldl (fun slots p => slots.define p.1.text p.2) slots =
        slots ++ (params.map Lexeme.text).zip values := by
    intro params
    induction params with
    | nil => simp
    | cons p params ih =>
      intro values slots hn
      cases values with
      | nil => simp
      | cons v values =>
        obtain ⟨hslots, hparams, hdisjoint⟩ := List.nodup_append.mp hn
        have hnew : p.text ∉ slots.map Prod.fst := fun hm =>
          hdisjoint p.text hm p.text List.mem_cons_self rfl
        rw [List.zip_cons_cons, List.foldl_cons, Slots.define_new hnew, ih]
        · simp
        · simpa using hn
  exact hstep params values [] hn

/-! ### Entries -/

/-- A call that is in progress after a moment, and began earlier, was in progress before it: as an outer call, if a
function is entered then. -/
theorem running_before {e : Entry} {inner outer : List (Option Entry)} {k : Moment} {past : History}
    (hlt : e.start.past.length < past.length) (hrun : running (k :: past) = inner ++ some e :: outer) :
    ∃ inner', running past = inner' ++ some e :: outer ∧ ∀ f, k.what = .enters f → inner' ≠ [] := by
  obtain ⟨m, what⟩ := k
  cases what with
  | calls callee values closing =>
    have hrun : none :: running past = inner ++ some e :: outer := hrun
    cases inner with
    | nil => cases hrun
    | cons x inner =>
      refine ⟨inner, (List.cons.inj hrun).2, ?_⟩
      rintro f ⟨⟩
  | leaves =>
    have hrun : (running past).tail = inner ++ some e :: outer := hrun
    cases hr : running past with
    | nil =>
      rw [hr] at hrun
      exact absurd hrun.symm (by simp)
    | cons x rest =>
      rw [hr] at hrun
      refine ⟨x :: inner, congrArg _ hrun, ?_⟩
      rintro f ⟨⟩
  | enters f =>
    have hrun : some ⟨f, ⟨m, past⟩⟩ :: (running past).tail = inner ++ some e :: outer := hrun
    cases inner with
    | nil =>
      obtain ⟨hhead, -⟩ := List.cons.inj hrun
      have hpast : past = e.start.past := congrArg (fun e => e.start.past) (Option.some.inj hhead)
      exact absurd (congrArg List.length hpast) (Nat.ne_of_gt hlt)
    | cons y inner =>
      obtain ⟨-, htail⟩ := List.cons.inj hrun
      cases hr : running past with
      | nil =>
        rw [hr] at htail
        exact absurd htail.symm (by simp)
      | cons x rest =>
        rw [hr] at htail
        exact ⟨x :: inner, congrArg _ htail, fun _ _ => List.cons_ne_nil _ _⟩
  | _ =>
    refine ⟨inner, hrun, ?_⟩
    rintro f ⟨⟩

/-- While a function that was entered is in progress, all others that are entered are entered by later calls. -/
theorem running_entered {e : Entry} {outer : List (Option Entry)} {past : History}
    (hlt : e.start.past.length < past.length) :
    ∀ {new : History} {inner : List (Option Entry)}, running (new ++ past) = inner ++ some e :: outer →
      ∀ {late j mid g}, new = late ++ j :: mid → j.what = .enters g →
        ∃ inner', inner' ≠ [] ∧ running (mid ++ past) = inner' ++ some e :: outer := by
  intro new
  induction new with
  | nil => exact fun _ _ _ _ _ hsplit => absurd hsplit (by simp)
  | cons k new ih =>
    intro inner hrun late j mid g hsplit hwhat
    have hlonger : past.length ≤ (new ++ past).length := List.length_append ▸ Nat.le_add_left _ _
    obtain ⟨inner', hrun', henters⟩ := running_before (Nat.lt_of_lt_of_le hlt hlonger) hrun
    cases late with
    | nil =>
      cases hsplit
      exact ⟨inner', henters g hwhat, hrun'⟩
    | cons _ late =>
      cases hsplit
      exact ih hrun' rfl hwhat

/-- The history of a function that is run: its own entry comes first, and the function is in progress at the end. -/
theorem Traced.invoke_history (S : Settings) (fuel : Nat) (f : Closure) (values : List Value) (r : Recorder) :
    let past := (endState (Traced.invoke (Traced.exec S fuel) f values r)).past
    ∃ new, past = new ++ ⟨r.machine, .enters f⟩ :: r.past ∧ running past = some ⟨f, r⟩ :: (running r.past).tail := by
  obtain ⟨m, env, -, hcall⟩ := invoke_eq (Traced.exec S fuel) f values r
  have hbody : (Traced.runAll (Traced.exec S fuel) f.decl.body).Accounts S fun _ => True :=
    runAll_accounts (fun s own => (accounts_evaluation S fuel).stmt s own) _ fun _ _ => trivial
  have hb := hbody.within env ⟨m, ⟨r.machine, .enters f⟩ :: r.past⟩
  have hpast := (conclude_ends f (Traced.within env (Traced.runAll (Traced.exec S fuel) f.decl.body)
    ⟨m, ⟨r.machine, .enters f⟩ :: r.past⟩)).1
  rw [← hcall] at hpast
  rw [hpast]
  exact ⟨_, hb.moments.extends_past.choose_spec, hb.level⟩

/-! ### Calls of classes -/

/-- The recorder with which a call begins, at the moment at which it is made. -/
def Moment.called (k : Moment) (early : History) : Recorder :=
  ⟨{ k.machine with depth := k.machine.depth + 1 }, k :: early⟩

/-- After an instance is made. -/
def Recorder.withInstance (r : Recorder) : Recorder :=
  ⟨{ r.machine with heap := r.machine.heap.newInstance.2 }, r.past⟩

/-- After a method is bound to an object. -/
def Recorder.binding (r : Recorder) (method : Closure) (object : Value) : Recorder :=
  ⟨{ r.machine with heap := (r.machine.heap.newFrame [("this", object)]).2 },
    ⟨r.machine, .binds method object⟩ :: r.past⟩

/-- A method inside one more frame. -/
def Closure.inFrame (f : Closure) (frame : FrameId) : Closure := { f with env := frame :: f.env }

/-- The function `f` is run from the recorder `start` on, in a call inside the calls `outer`: it is the method, bound
to the object in a frame of its own; the parameters are bound to the arguments, one to one and in order; and no other
function is entered in this call, but in later ones only. -/
structure RunsOnce (S : Settings) (fuel : Nat) (method : Closure) (object : Value) (values : List Value)
    (outer : List (Option Entry)) (start : Recorder) (f : Closure) : Prop where
  bound : ∃ frame, f = method.inFrame frame ∧ start.machine.heap.slots frame = [("this", object)]
  count : values.length = method.decl.params.length
  distinct : (method.decl.params.map Lexeme.text).Nodup
  begins : Traced.invoke (Traced.exec S fuel) f values start =
    (Traced.returning (Traced.within (start.machine.heap.frames.size :: f.env)
      (Traced.runAll (Traced.exec S fuel) method.decl.body)) >>= settle f)
      ⟨{ start.machine with
          heap := (start.machine.heap.newFrame ((method.decl.params.map Lexeme.text).zip values)).2 },
        ⟨start.machine, .enters f⟩ :: start.past⟩
  once : ∃ new, (endState (Traced.invoke (Traced.exec S fuel) f values start)).past =
      new ++ ⟨start.machine, .enters f⟩ :: start.past ∧
    ∀ late j mid g, new = late ++ j :: mid → j.what = .enters g → ∃ inner, inner ≠ [] ∧
      running (mid ++ ⟨start.machine, .enters f⟩ :: start.past) = inner ++ some ⟨f, start⟩ :: outer

/-- What a call of a class with given arguments, begun at a recorder, comes to.  A new instance is made.  If the class
has no initializer, the call yields the instance, and nothing else happens.  If it has one, the nearest one is bound to
the instance and run with the arguments; the call yields the instance when this comes to a value, and leaves by the
same exit when it does not. -/
def Class.Constructs (S : Settings) (fuel : Nat) (c : Class) (values : List Value) (r : Recorder)
    (res : EStateM.Result Exit Recorder Value) : Prop :=
  let object := Value.instance_ r.machine.heap.fields.size c
  match c.find? initializerName with
  | none => res = .ok object r.withInstance
  | some init =>
      let start := r.withInstance.binding init object
      let f := init.inFrame r.machine.heap.frames.size
      RunsOnce S fuel init object values (running r.past).tail start f ∧
      res = match Traced.invoke (Traced.exec S fuel) f values start with
        | .ok _ t => .ok object t
        | .error e t => .error e t

section construct

variable {S : Settings} {fuel : Nat} {c : Class} {values : List Value} {r : Recorder}

/-- A method that is bound to an object, and then run. -/
theorem runsOnce_binding {method : Closure} (hregular : method.decl.Regular)
    (hcount : values.length = method.decl.params.length) (object : Value) :
    RunsOnce S fuel method object values (running r.past).tail (r.binding method object)
      (method.inFrame r.machine.heap.frames.size) where
  bound := by
    refine ⟨_, rfl, ?_⟩
    change (r.machine.heap.newFrame [("this", object)]).2.slots r.machine.heap.frames.size = _
    rw [r.machine.heap.slots_newFrame, if_pos rfl]
  count := hcount
  distinct := hregular.params
  begins := by
    rw [← bindParams_eq hregular.params]
    rfl
  once := by
    obtain ⟨new, hpast, hrun⟩ := invoke_history S fuel (method.inFrame r.machine.heap.frames.size) values
      (r.binding method object)
    refine ⟨new, hpast, fun late j mid g hsplit hwhat => ?_⟩
    rw [hpast] at hrun
    have hown : running (new ++
        ⟨(r.binding method object).machine, .enters (method.inFrame r.machine.heap.frames.size)⟩ ::
          (r.binding method object).past) =
      [] ++ some ⟨method.inFrame r.machine.heap.frames.size, r.binding method object⟩ :: (running r.past).tail := hrun
    exact running_entered (Nat.lt_succ_self _) hown hsplit hwhat

theorem construct_none (ex : Stmt NodeId → Traced Unit) (hinit : c.find? initializerName = none) :
    Traced.construct ex c values r = .ok (.instance_ r.machine.heap.fields.size c) r.withInstance := by
  unfold Traced.construct
  rw [hinit]
  rfl

theorem construct_some (ex : Stmt NodeId → Traced Unit) {init : Closure}
    (hinit : c.find? initializerName = some init) :
    Traced.construct ex c values r =
      (Traced.invoke ex (init.inFrame r.machine.heap.frames.size) values >>= fun _ =>
        pure (.instance_ r.machine.heap.fields.size c))
        (r.withInstance.binding init (.instance_ r.machine.heap.fields.size c)) := by
  unfold Traced.construct
  rw [hinit]
  rfl

theorem Class.constructs (hregular : ∀ init, c.find? initializerName = some init → init.decl.Regular)
    (hcount : values.length = c.arity) :
    c.Constructs S fuel values r (Traced.construct (Traced.exec S fuel) c values r) := by
  unfold Constructs
  unfold Class.arity at hcount
  dsimp only
  cases hinit : c.find? initializerName with
  | none => exact construct_none _ hinit
  | some init =>
    rw [hinit] at hcount
    refine ⟨runsOnce_binding (r := r.withInstance) (hregular init hinit) hcount _, ?_⟩
    rw [construct_some _ hinit]
    cases hrun : Traced.invoke (Traced.exec S fuel) (init.inFrame r.machine.heap.frames.size) values
        (r.withInstance.binding init (.instance_ r.machine.heap.fields.size c)) with
    | ok v t =>
      rw [bind_ok hrun]
      rfl
    | error e t => rw [bind_error hrun]

end construct

/-! ### Sessions -/

/-- The recorder with which a call begins is orderly. -/
theorem Moment.Orderly.called {o : Outset} {k : Moment} {early : History}
    (hm : Throughout (Moment.Orderly o) (k :: early)) {callee : Callable} {values : List Value} {closing : Lexeme}
    (hwhat : k.what = .calls callee values closing) :
    (k.called early).Upheld (k.outset o.settings) (k.called early) k.machine.env := by
  have hk := Moment.Orderly.upheld hm
  have hgenuine := hm.1.2
  obtain ⟨m, what⟩ := k
  cases hwhat
  have hcalls :=
    hk.happens rfl (.refl _) (hk.orderly.note (.calls callee values closing) rfl trivial id) hgenuine
  have hdeeper := hcalls.change (n := { m with depth := m.depth + 1 }) rfl (.refl _) (hcalls.orderly.machine rfl)
  exact { hdeeper with later := .refl _ }

/-- An instance that is met was made before. -/
theorem Moment.Orderly.instances {o : Outset} {k : Moment} {early : History}
    (hm : Throughout (Moment.Orderly o) (k :: early)) {i : Nat} {c : Class}
    (hi : k.Meets (.instance_ i c) ∨ ∃ j ∈ early, j.Meets (.instance_ i c)) : i < k.machine.heap.fields.size := by
  rcases hi with hi | ⟨j, hj, hi⟩
  · exact (hm.1.meets hi).1
  · obtain ⟨late, before, hsplit⟩ := List.append_of_mem hj
    have hat := throughout_iff.mp hm.2 late j before hsplit
    exact Nat.lt_of_lt_of_le (hat.meets hi).1 (hm.1.1.grown j hj).instances

/-- A call of an initializer that was bound to an instance yields this instance, if it yields a value. -/
theorem Moment.Orderly.initializes {o : Outset} {k : Moment} {early : History}
    (hm : Throughout (Moment.Orderly o) (k :: early)) {f : Closure} {values : List Value} {closing : Lexeme}
    (hwhat : k.what = .calls (.function f) values closing) {object : Value} (hbound : f.BoundTo early object)
    (hname : f.decl.name.text = initializerName) {fuel : Nat} {v : Value} {t : Recorder}
    (hrun : Traced.call o.settings (Traced.exec o.settings fuel) (.function f) values (k.called early) = .ok v t) :
    v = object := by
  have hgenuine := hm.1.2
  rw [hwhat] at hgenuine
  obtain ⟨⟨u, hu, hgu⟩, hvalues, -⟩ := hgenuine
  have hf : f.Genuine early := by
    cases u <;> simp only [Value.callable?, Option.some.injEq, Callable.function.injEq, reduceCtorEq] at hu
    subst hu
    exact hgu
  -- the method was made by a class statement, which marks those of this name
  have hinit : f.isInitializer = true := by
    obtain ⟨j, hj, method, hbinds, rfl⟩ := hbound
    obtain ⟨late, before, hsplit⟩ := List.append_of_mem hj
    have hat := (throughout_iff.mp hm.2 late j before hsplit).2
    rw [hbinds] at hat
    exact hat.1.trans (beq_iff_eq.mpr hname)
  have hbegin : Recorder.Before ⟨k.machine, early⟩ (k.called early) := ⟨List.suffix_cons _ _, .refl _⟩
  have hend := ((upholds_evaluation (k.outset o.settings) fuel).invoke_yields hf.regular
    (fun w hw => (hvalues w hw).later hbegin) _ (Moment.Orderly.called hm hwhat)).of_ok hrun
  exact hend.2.2 hinit object (hbound.mono fun j hj => hend.1.later.past.subset (List.mem_cons_of_mem _ hj))

/-- Constructions and initializers yield the right instance.  Consider a session in any setting, after any steps.

A frame that a method was bound in has the instance as `this`, at the end of the session and at every moment of it
after the binding.

Consider any moment of the session at which something is called, with given arguments, and what this call comes to.
If a class is called, the call comes to what it should (`Class.Constructs`), and the instance that it makes has a number
that no instance had before.  If a method of the name `init` is called that was bound to an instance, and the call comes
to a value, the value is this instance. -/
theorem Session.constructions_yield (settings : Settings) (sink : Sink) (steps : List Step) :
    let s := ((Session.start sink).perform settings steps).2
    let past := (Session.start sink).historyDuring settings [] steps
    (∀ j ∈ past, ∀ method object, j.what = .binds method object →
      (∃ i c, object = .instance_ i c) ∧ (s.machine.heap.slots j.frame).lookup "this" = some object) ∧
    ∀ late k early, past = late ++ k :: early →
      (∀ j ∈ early, ∀ method object, j.what = .binds method object →
        (k.machine.heap.slots j.frame).lookup "this" = some object) ∧
      ∀ callee values closing, k.what = .calls callee values closing → ∀ fuel,
        let res := Traced.call settings (Traced.exec settings fuel) callee values (k.called early)
        (∀ c, callee = .cls c → c.Constructs settings fuel values (k.called early) res ∧
          ∀ i c', (k.Meets (.instance_ i c') ∨ ∃ j ∈ early, j.Meets (.instance_ i c')) →
            i < (k.called early).machine.heap.fields.size) ∧
        ∀ f object, callee = .function f → f.BoundTo early object → f.decl.name.text = initializerName →
          ∀ v t, res = .ok v t → v = object := by
  intro s past
  obtain ⟨o, hS, hs⟩ := (Session.start_orderly settings sink).during rfl steps
  have hs : s.Orderly o past := hs
  have hS : o.settings = settings := hS
  subst hS
  have hfills {r : Recorder} (hr : r.Orderly o) {j : Moment} (hj : j ∈ r.past) {method : Closure} {object : Value}
      (hwhat : j.what = .binds method object) :
      (∃ i c, object = .instance_ i c) ∧ (r.machine.heap.slots j.frame).lookup "this" = some object := by
    have h := hr.fills j hj
    rwa [hwhat] at h
  refine ⟨fun j hj method object hwhat => hfills hs.orderly hj hwhat, fun late k early hsplit =>
    ⟨fun j hj method object hwhat => ?_, fun callee values closing hwhat fuel => ⟨?_, ?_⟩⟩⟩
  all_goals have hearly : Throughout (Moment.Orderly o) (k :: early) := Throughout.before (hsplit ▸ hs.moments)
  · exact (hfills hearly.1.1 hj hwhat).2
  · rintro c rfl
    have hgenuine := hearly.1.2
    rw [hwhat] at hgenuine
    have hmeets : k.Meets (.cls c) := .inr (by rw [hwhat]; exact List.mem_cons_self)
    have hc : c.Made early := (hearly.1.meets hmeets).made rfl
    exact ⟨c.constructs (fun _ hinit => (hc.declared hinit).1) hgenuine.2.2,
      fun i c' => Moment.Orderly.instances hearly⟩
  · rintro f object rfl hbound hname v t hrun
    exact Moment.Orderly.initializes hearly hwhat hbound hname hrun

end Lox
