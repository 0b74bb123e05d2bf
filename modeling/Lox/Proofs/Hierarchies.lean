import Lox.Proofs.OrderlyRuns

/-! # Classes and their methods

A class is made after the class it inherits from, so the numbers of the classes in a hierarchy descend, whatever the
classes are called (`Class.Grounded`).  A method is that of the nearest class that defines it, and the last of its
name there (`Making.Makes`).  A property of an instance is a field, if it was ever set, or else a method, which is
bound (`Session.lookup_nearest`). -/

namespace Lox

open Traced

/-! ### Nearest definitions -/

/-- The last method of a name in the list of a class statement. -/
def lastNamed (n : String) (methods : List (FunDecl NodeId)) : Option (FunDecl NodeId) :=
  (methods.filter fun d => d.name.text == n).getLast?

theorem lastNamed_concat (n : String) (methods : List (FunDecl NodeId)) (d : FunDecl NodeId) :
    lastNamed n (methods ++ [d]) = if d.name.text == n then some d else lastNamed n methods := by
  unfold lastNamed
  rw [List.filter_append, List.filter_singleton]
  cases d.name.text == n with
  | true => simp
  | false => simp

/-- The method that a class makes of a declaration in a scope chain. -/
def FunDecl.asMethod (d : FunDecl NodeId) (env : Env) : Closure := ⟨d, env, d.name.text == initializerName⟩

/-- A table of methods has the last method of each name. -/
theorem methodTable_lookup (methods : List (FunDecl NodeId)) (env : Env) (n : String) :
    (methodTable methods env).lookup n = (lastNamed n methods).map (·.asMethod env) := by
  induction methods using List.reverseRecOn with
  | nil => rfl
  | append_singleton methods d ih =>
    have htable : methodTable (methods ++ [d]) env = (d.name.text, d.asMethod env) :: methodTable methods env := by
      simp [methodTable, FunDecl.asMethod]
    rw [htable, lastNamed_concat, List.lookup_cons, BEq.comm, ih]
    cases d.name.text == n <;> rfl

/-- The class that a class inherits from. -/
def Class.superclass? (c : Class) : Option Class :=
  match c.ancestors with
  | [] => none
  | own :: rest => some ⟨own, rest⟩

/-- The class `c` is made by a class statement at a moment of the past.  It inherits from the class that the name of
the superclass stood for then.  A method is found among those of the statement, where the last one of its name counts,
or else in the superclass, or not at all. -/
structure Making.Makes (S : Settings) (past : History) (own : Making) (c : Class) : Prop where
  moment : own.moment ∈ past
  what : own.moment.what = .makes own.name own.superclass own.methods own.parent
  found : own.superclass.mapM (readSuperclass S) own.moment.machine = .ok own.parent own.moment.machine
  superclass : c.superclass? = own.parent
  named : c.own.name = own.name.text
  finds : ∀ n, c.find? n =
    match lastNamed n own.methods with
    | some d => some (d.asMethod own.chain)
    | none => own.parent.bind (·.find? n)
  arity : c.arity =
    match lastNamed initializerName own.methods with
    | some d => d.params.length
    | none => own.parent.elim 0 Class.arity

/-- A class that was made by a class statement, after the class that it inherits from, of which the same holds. -/
inductive Class.Grounded (S : Settings) (past : History) : Class → Prop
  | intro (own : Making) {c : Class} (hmakes : own.Makes S past c)
      (hbelow : ∀ k, c.superclass? = some k → k.own.id < c.own.id)
      (hsuper : ∀ k, c.superclass? = some k → Grounded S past k) : Grounded S past c

/-- The numbers of the classes in a hierarchy descend, so no class is above itself. -/
def Class.Descends (c : Class) : Prop := (c.bodies.map ClassBody.id).Pairwise (· > ·)

namespace Making

theorem made_superclass? (own : Making) : own.made.superclass? = own.parent := by
  unfold Class.superclass? made
  cases own.parent <;> rfl

theorem made_find? (own : Making) (n : String) : own.made.find? n =
    match lastNamed n own.methods with
    | some d => some (d.asMethod own.chain)
    | none => own.parent.bind (·.find? n) := by
  have hbodies : own.made.find? n = (⟨own.moment.machine.heap.nextId, own.name.text,
      methodTable own.methods own.chain⟩ :: own.parent.elim [] Class.bodies).findSome? (·.methods.lookup n) := rfl
  rw [hbodies, List.findSome?_cons, methodTable_lookup]
  cases lastNamed n own.methods with
  | some d => rfl
  | none => cases own.parent <;> rfl

theorem made_arity (own : Making) : own.made.arity =
    match lastNamed initializerName own.methods with
    | some d => d.params.length
    | none => own.parent.elim 0 Class.arity := by
  unfold Class.arity
  rw [made_find?]
  cases lastNamed initializerName own.methods with
  | some d => rfl
  | none => cases own.parent <;> rfl

end Making

section made

variable {o : Outset} {past : History} {r : Recorder}

/-- What is known of a class statement when it makes a class. -/
theorem Moment.Orderly.found {k : Moment} (hm : Throughout (Moment.Orderly o) past) (hk : k ∈ past) {name : Lexeme}
    {superclass : Option (Reference NodeId)} {methods : List (FunDecl NodeId)} {parent : Option Class}
    (hwhat : k.what = .makes name superclass methods parent) :
    superclass.mapM (readSuperclass o.settings) k.machine = .ok parent k.machine := by
  obtain ⟨late, early, hsplit⟩ := List.append_of_mem hk
  have horderly := (throughout_iff.mp hm late k early hsplit).2
  rw [hwhat] at horderly
  exact horderly.2.2.2

theorem Class.Made.grounded (hm : Throughout (Moment.Orderly o) past) {c : Class} (h : c.Made past) :
    c.Grounded o.settings past := by
  induction h with
  | @intro own hmem hwhat hmethods hbelow hparent ih =>
    refine .intro own ⟨hmem, hwhat, Moment.Orderly.found hm hmem hwhat, own.made_superclass?, rfl,
      own.made_find?, own.made_arity⟩ (fun k hk => ?_) fun k hk => ?_
    · rw [own.made_superclass?] at hk
      exact hbelow k hk
    · rw [own.made_superclass?] at hk
      exact ih k hk

theorem Class.Made.descends {c : Class} (h : c.Made past) : c.Descends := by
  induction h with
  | @intro own hmem hwhat hmethods hbelow hparent ih =>
    have hbodies : own.made.Descends ↔
        (∀ i ∈ (own.parent.elim [] Class.bodies).map ClassBody.id, own.moment.machine.heap.nextId > i) ∧
          ((own.parent.elim [] Class.bodies).map ClassBody.id).Pairwise (· > ·) := List.pairwise_cons
    rw [hbodies]
    cases hp : own.parent with
    | none => exact ⟨List.forall_mem_nil _, .nil⟩
    | some k =>
      have hk := ih k hp
      have hcons := List.pairwise_cons.mp hk
      refine ⟨List.forall_mem_cons.mpr ⟨hbelow k hp, fun i hi => ?_⟩, hk⟩
      exact Nat.lt_trans (hcons.1 i hi) (hbelow k hp)

/-- A class has its number alone. -/
theorem Recorder.Orderly.made_unique (h : r.Orderly o) {c c' : Class} (hc : c.Made r.past) (hc' : c'.Made r.past)
    (hid : c.own.id = c'.own.id) : c = c' := by
  cases hc with
  | @intro own hmem hwhat _ _ _ =>
    cases hc' with
    | @intro own' hmem' hwhat' _ _ _ =>
      have hk : own.moment = own'.moment := h.numberedOnce _ hmem _ hmem' (by rw [hwhat]; trivial)
        (by rw [hwhat']; trivial) hid
      have hsame := hwhat.symm.trans ((congrArg Moment.what hk).trans hwhat')
      obtain ⟨name, superclass, methods, parent, moment⟩ := own
      obtain ⟨name', superclass', methods', parent', moment'⟩ := own'
      cases hsame
      cases hk
      rfl

end made

/-! ### Values at a moment -/

/-- The class that a value is, or is an instance of. -/
def Value.class? : Value → Option Class
  | cls c => some c
  | instance_ _ c => some c
  | _ => none

/-- The class that is called. -/
def Callable.class? : Callable → Option Class
  | cls c => some c
  | _ => none

/-- A variable or a field has this value. -/
def Heap.Holds (h : Heap) (v : Value) : Prop :=
  (∃ f n, (h.slots f).lookup n = some v) ∨ ∃ i n, h.field? i n = some v

/-- The values that something happens with. -/
def Happening.values : Happening → List Value
  | calls callee values _ => callee.class?.toList.map .cls ++ values
  | binds _ object => [object]
  | makes _ _ _ parent => parent.toList.map .cls
  | prints v => [v]
  | _ => []

/-- A value that is met at a moment: it is in the heap, or something happens with it. -/
def Moment.Meets (k : Moment) (v : Value) : Prop := k.machine.heap.Holds v ∨ v ∈ k.what.values

section values

variable {o : Outset} {r : Recorder} {v : Value}

theorem Recorder.Orderly.holds (h : r.Orderly o) (hv : r.machine.heap.Holds v) : v.Genuine r := by
  rcases hv with ⟨f, n, hslot⟩ | ⟨i, n, hfield⟩
  · exact h.slots f n v hslot
  · exact (h.fields i n v hfield).1

theorem Happening.Genuine.values {S : Settings} {what : Happening} (h : what.Genuine S r) (hv : v ∈ what.values) :
    v.Genuine r := by
  cases what with
  | calls callee values closing =>
    obtain ⟨⟨u, hcallee, hu⟩, hvalues, -⟩ := h
    rcases List.mem_append.mp hv with hv | hv
    · obtain ⟨c, hc, rfl⟩ := List.mem_map.mp hv
      cases u <;> simp only [Value.callable?, Option.some.injEq, reduceCtorEq] at hcallee <;> subst hcallee <;>
        cases Option.mem_toList.mp hc
      exact hu
    · exact hvalues v hv
  | binds method object => exact List.mem_singleton.mp hv ▸ h.2
  | makes name superclass methods parent =>
    obtain ⟨c, hc, rfl⟩ := List.mem_map.mp hv
    exact h.2.2.1 c (Option.mem_toList.mp hc)
  | prints u => exact List.mem_singleton.mp hv ▸ h
  | _ => exact absurd hv List.not_mem_nil

theorem Moment.Orderly.meets {k : Moment} {early : History} (h : k.Orderly o early) (hv : k.Meets v) :
    v.Genuine ⟨k.machine, early⟩ := hv.elim h.1.holds h.2.values

theorem Value.Genuine.made (h : v.Genuine r) {c : Class} (hc : v.class? = some c) : c.Made r.past := by
  cases v <;> simp only [Value.class?, Option.some.injEq, reduceCtorEq] at hc <;> subst hc
  · exact h
  · exact h.2

end values

/-! ### Properties -/

/-- What it comes to in a machine to read a property of an instance: the field, if there is one, or else a method that
is bound to the instance, or else a fault. -/
def Machine.Reads (m : Machine) (i : Nat) (c : Class) (name : Lexeme) (res : EStateM.Result Exit Machine Value) :
    Prop :=
  match m.heap.field? i name.text, c.find? name.text with
  | some v, _ => res = .ok v m
  | none, some method => ∃ id n, res = .ok (.function id { method with env := m.heap.frames.size :: method.env }) n ∧
      n.heap.slots m.heap.frames.size = [("this", .instance_ i c)]
  | none, none => ∃ e, res = .error (.failed e) m ∧ e.fault.message = "Undefined property '" ++ name.text ++ "'." ∧
      e.line = name.line

theorem property_reads (i : Nat) (c : Class) (name : Lexeme) (m : Machine) :
    m.Reads i c name ((Value.instance_ i c).property name m) := by
  have hfield : fieldOf i name m = .ok (m.heap.field? i name.text) m := rfl
  rw [Simulation.property_instance, bind_ok hfield]
  unfold Machine.Reads
  cases m.heap.field? i name.text with
  | some v => rfl
  | none =>
    dsimp only
    cases c.find? name.text with
    | none => exact ⟨_, rfl, rfl, rfl⟩
    | some method =>
      refine ⟨_, _, rfl, ?_⟩
      change (m.heap.newFrame [("this", .instance_ i c)]).2.slots m.heap.frames.size = _
      rw [m.heap.slots_newFrame, if_pos rfl]

/-- To read a property of an instance. -/
theorem eval_get {S : Settings} {fuel : Nat} {object : Expr NodeId} {m m' : Machine} {i : Nat} {c : Class}
    (h : eval S fuel object m = .ok (.instance_ i c) m') (id : NodeId) (name : Lexeme) :
    m'.Reads i c name (eval S (fuel + 1) (.get id object name) m) := by
  have hrun : eval S (fuel + 1) (.get id object name) m = (Value.instance_ i c).property name m' := by
    rw [eval_succ]
    exact bind_ok h
  rw [hrun]
  exact property_reads i c name m'

/-- An assignment to a field that comes to a value. -/
theorem Traced.set_ok {S : Settings} {ev : Expr NodeId → Traced Value} {ex : Stmt NodeId → Traced Unit} {id : NodeId}
    {object : Expr NodeId} {name : Lexeme} {value : Expr NodeId} {r t : Recorder} {v : Value}
    (h : Traced.evalWith S ev ex (.set id object name value) r = .ok v t) :
    ∃ i c s s', ev object r = .ok (.instance_ i c) s ∧ ev value s = .ok v s' ∧
      t = ⟨{ s'.machine with heap := s'.machine.heap.setField i name.text v }, s'.past⟩ := by
  obtain ⟨u, s, hobject, h⟩ := of_bind_ok h
  cases u with
  | instance_ i c =>
    obtain ⟨w, s', hvalue, h⟩ := of_bind_ok h
    cases h
    exact ⟨i, c, s, s', hobject, hvalue, rfl⟩
  | _ => cases h

/-- An assignment to a field, at a moment of a history: if it comes to a value, the field of the instance has this
value then. -/
theorem Moment.Orderly.sets {o : Outset} {m : Machine} {early : History} {id : NodeId} {object : Expr NodeId}
    {name : Lexeme} {value : Expr NodeId}
    (hm : Throughout (Moment.Orderly o) (⟨m, .evaluates (.set id object name value)⟩ :: early)) {fuel : Nat}
    {v : Value} {r : Recorder}
    (hrun : Traced.eval o.settings (fuel + 1) (.set id object name value) ⟨m, early⟩ = .ok v r) :
    ∃ i c s, Traced.eval o.settings fuel object ⟨m, ⟨m, .evaluates (.set id object name value)⟩ :: early⟩ =
      .ok (.instance_ i c) s ∧ r.machine.heap.field? i name.text = some v := by
  have hspelled : (Expr.set id object name value).Spelled := hm.1.2
  obtain ⟨hsv, hso⟩ := List.forall_mem_append.mp hspelled
  have hk := Moment.Orderly.upheld hm
  have hbegin := hk.happens rfl (.refl _)
    (hk.orderly.note (.evaluates (.set id object name value)) rfl trivial fun h => h) hspelled
  have hrun : (Traced.note (.evaluates (.set id object name value)) >>= fun _ =>
      Traced.evalWith o.settings (Traced.eval o.settings fuel) (Traced.exec o.settings fuel)
        (.set id object name value)) ⟨m, early⟩ = .ok v r := hrun
  rw [note_bind] at hrun
  obtain ⟨i, c, s, s', hobject, hvalue, rfl⟩ := set_ok hrun
  refine ⟨i, c, s, hobject, ?_⟩
  -- the instance was made before, so there is a place for its fields
  obtain ⟨hs, hi⟩ := eval_upheld hso hbegin hobject
  obtain ⟨hs', -⟩ := eval_upheld hsv hs hvalue
  have hsize : i < s'.machine.heap.fields.size := Nat.lt_of_lt_of_le hi.1 hs'.later.heap.instances
  rw [Heap.field?_setField, if_pos ⟨rfl, hsize, rfl⟩]

/-! ### Sessions -/

/-- A class of a session: it was made after those that it inherits from, and none of them is another one of them. -/
structure Class.Stands (S : Settings) (past : History) (c : Class) : Prop where
  grounded : c.Grounded S past
  descends : c.Descends

theorem Class.Made.stands {o : Outset} {past : History} (hm : Throughout (Moment.Orderly o) past) {c : Class}
    (h : c.Made past) : c.Stands o.settings past := ⟨h.grounded hm, h.descends⟩

/-- The fields that are set in a machine: they were given their values by assignments, and no field that was set is
unset again. -/
structure Machine.FieldsSet (S : Settings) (past : History) (m : Machine) : Prop where
  assigned : ∀ i n v, m.heap.field? i n = some v → SetIn S past i n v
  kept : ∀ k ∈ past, ∀ i n, (k.machine.heap.field? i n).isSome → (m.heap.field? i n).isSome

theorem Recorder.Orderly.fieldsSet {o : Outset} {r : Recorder} (h : r.Orderly o) :
    r.machine.FieldsSet o.settings r.past where
  assigned i n v hv := (h.fields i n v hv).2
  kept k hk i n hs := (h.grown k hk).set i n hs

/-- Methods are looked up in the nearest class that defines them, in a hierarchy without cycles.  Consider a session
in any setting, after any steps.

At every moment of it, and at its end, every class that a variable or a field has as its value, or an instance of it,
or that something happens with, was made by a class statement, after the class that it inherits from, of which the
same holds: so the hierarchy ends, and the numbers of the classes in it descend.  No two classes have one number.  The
class has the last method of a name of those in the statement, or else the one that its superclass has, or else none.

To read a property of an instance yields the field, if it is set, or else the method of its class bound to the
instance, or else it is a fault.  A field is set if an assignment to it was evaluated: it has the value of one, stays
set, and has the value after the assignment.

A class is called with as many arguments as the nearest `init` has parameters, or none if there is no `init`. -/
theorem Session.lookup_nearest (settings : Settings) (sink : Sink) (steps : List Step) :
    let s := ((Session.start sink).perform settings steps).2
    let past := (Session.start sink).historyDuring settings [] steps
    let met := fun v => s.machine.heap.Holds v ∨ ∃ k ∈ past, k.Meets v
    (∀ v c, s.machine.heap.Holds v → v.class? = some c → c.Stands settings past) ∧
    (∀ late k early, past = late ++ k :: early → ∀ v c, k.Meets v → v.class? = some c → c.Stands settings early) ∧
    (∀ v v' c c', met v → met v' → v.class? = some c → v'.class? = some c' → c.own.id = c'.own.id → c = c') ∧
    (∀ fuel id object name m m' i c, eval settings fuel object m = .ok (.instance_ i c) m' →
      m'.Reads i c name (eval settings (fuel + 1) (.get id object name) m)) ∧
    (s.machine.FieldsSet settings past ∧
      ∀ late k early, past = late ++ k :: early → k.machine.FieldsSet settings early ∧
        ∀ id object name value fuel v r, k.what = .evaluates (.set id object name value) →
          Traced.eval settings (fuel + 1) (.set id object name value) ⟨k.machine, early⟩ = .ok v r →
          ∃ i c t, Traced.eval settings fuel object ⟨k.machine, k :: early⟩ = .ok (.instance_ i c) t ∧
            r.machine.heap.field? i name.text = some v) ∧
    (∀ exec c line values m, values.length ≠ c.arity →
      (Value.cls c).call settings exec line values m = .error (.failed ⟨.arity c.arity values.length, line⟩) m) ∧
    ∀ late k early, past = late ++ k :: early → ∀ c values closing, k.what = .calls (.cls c) values closing →
      values.length = c.arity := by
  intro s past met
  obtain ⟨o, hS, hs⟩ := (Session.start_orderly settings sink).during rfl steps
  have hs : s.Orderly o past := hs
  have hS : o.settings = settings := hS
  subst hS
  have hmoment := throughout_iff.mp hs.moments
  have hmade {v : Value} {c : Class} (hv : met v) (hc : v.class? = some c) : c.Made past := by
    rcases hv with hv | ⟨k, hk, hv⟩
    · exact (hs.orderly.holds hv).made hc
    · obtain ⟨late, early, hsplit⟩ := List.append_of_mem hk
      have hsub : early ⊆ past := fun j hj => hsplit ▸ List.mem_append_right _ (List.mem_cons_of_mem _ hj)
      exact (((hmoment late k early hsplit).meets hv).made hc).mono hsub
  refine ⟨fun v c hv hc => (hmade (.inl hv) hc).stands hs.moments, fun late k early hsplit v c hv hc => ?_,
    fun v v' c c' hv hv' hc hc' hid => hs.orderly.made_unique (hmade hv hc) (hmade hv' hc') hid,
    fun fuel id object name m m' i c h => eval_get h id name,
    ⟨hs.orderly.fieldsSet, fun late k early hsplit => ⟨(hmoment late k early hsplit).1.fieldsSet, ?_⟩⟩,
    fun exec c line values m hn => ?_, fun late k early hsplit c values closing hwhat => ?_⟩
  · have hearly : Throughout (Moment.Orderly o) (k :: early) := Throughout.before (hsplit ▸ hs.moments)
    exact ((hearly.1.meets hv).made hc).stands hearly.2
  · rintro id object name value fuel v r hwhat hrun
    have hearly : Throughout (Moment.Orderly o) (k :: early) := Throughout.before (hsplit ▸ hs.moments)
    obtain ⟨m, what⟩ := k
    cases hwhat
    exact Moment.Orderly.sets hearly hrun
  · have hcall : (Value.cls c).call o.settings exec line values = Action.fail (.arity c.arity values.length) line :=
      if_pos hn
    exact congrFun hcall m
  · have hgenuine := (hmoment late k early hsplit).2
    rw [hwhat] at hgenuine
    exact hgenuine.2.2

end Lox
