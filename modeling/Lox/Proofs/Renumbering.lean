import Lox.Proofs.Operators
import Lox.Proofs.Shifting

/-! # Numbers of nodes do not matter

The number of a node serves to look its distance up, and for nothing else.  So code with other numbers does the same
in a machine whose code has the other numbers as well, as long as the table of that machine has for every other
number what it had for the number before (`evaluation_renumbers`).  Two nodes may get the same number, if their
distances are the same.

The code of a machine is changed everywhere, in the frames as in the fields of instances, and no action looks into
it but to run it; this is one rule for each way of putting actions together and one lemma for each function. -/

namespace Lox

open Lox.Action

variable {α α' β β' : Type}

/-! ### Code with other numbers -/

section code

variable (σ : NodeId → NodeId)

/-- A declaration whose nodes have other numbers. -/
def FunDecl.renumber (d : FunDecl NodeId) : FunDecl NodeId := d.map σ id

/-- A function whose nodes have other numbers. -/
abbrev Closure.renumber (c : Closure) : Closure := c.mapDecl (FunDecl.renumber σ)

/-- A class whose nodes have other numbers. -/
abbrev Class.renumber (c : Class) : Class := c.mapDecl (FunDecl.renumber σ)

/-- A value in whose code the nodes have other numbers. -/
abbrev Value.renumber (v : Value) : Value := v.mapDecl (FunDecl.renumber σ)

/-- Slots in whose code the nodes have other numbers. -/
abbrev Slots.renumber (s : Slots) : Slots := s.mapDecl (FunDecl.renumber σ)

/-- A heap in whose code the nodes have other numbers. -/
abbrev Heap.renumber (h : Heap) : Heap := h.mapDecl (FunDecl.renumber σ)

/-- An exit in whose value the nodes have other numbers. -/
def Exit.renumber : Exit → Exit
  | returned v => .returned (v.renumber σ)
  | e => e

/-- A machine in whose code the nodes have other numbers, with another table. -/
def Machine.renumber (T : Std.HashMap NodeId Nat) (m : Machine) : Machine :=
  { m with heap := m.heap.renumber σ, distances := T }

end code

section values

variable {σ : NodeId → NodeId}

@[simp] theorem Value.text_renumber (v : Value) : (v.renumber σ).text = v.text := by
  cases v with
  | bool b => cases b <;> rfl
  | function id c =>
      obtain ⟨⟨name, params, body⟩, env, i⟩ := c
      rfl
  | _ => rfl

@[simp] theorem Value.truthy_renumber (v : Value) : (v.renumber σ).truthy = v.truthy := by
  cases v <;> rfl

@[simp] theorem Value.equals_renumber (v u : Value) : (v.renumber σ).equals (u.renumber σ) = v.equals u := by
  cases v <;> cases u <;> rfl

theorem Value.resembles_renumber (v : Value) : v.Resembles (v.renumber σ) :=
  ⟨v.truthy_renumber, v.text_renumber, by cases v <;> rfl⟩

theorem Value.Scalar.renumber {v : Value} (h : v.Scalar) : v.renumber σ = v := by
  cases h <;> rfl

@[simp] theorem Closure.arity_renumber (c : Closure) : (c.renumber σ).arity = c.arity := by
  obtain ⟨⟨name, params, body⟩, env, i⟩ := c
  simp [Closure.mapDecl, FunDecl.renumber, FunDecl.map, Closure.arity, FunDecl.params]

/-- What stands under a name among changed values. -/
theorem lookup_mapValues (f : α → β) (entries : List (String × α)) (n : String) :
    (entries.map fun p => (p.1, f p.2)).lookup n = (entries.lookup n).map f := by
  induction entries with
  | nil => rfl
  | cons p entries ih =>
      rw [List.map_cons, List.lookup_cons, List.lookup_cons, ih]
      cases n == p.1 <;> rfl

theorem Slots.lookup_renumber (s : Slots) (n : String) :
    (Slots.renumber σ s).lookup n = (s.lookup n).map (Value.renumber σ) := lookup_mapValues _ s n

theorem ClassBody.lookup_renumber (b : ClassBody) (n : String) :
    (b.mapDecl (FunDecl.renumber σ)).methods.lookup n = (b.methods.lookup n).map (Closure.renumber σ) :=
  lookup_mapValues _ b.methods n

theorem Class.bodies_renumber (c : Class) :
    (c.renumber σ).bodies = c.bodies.map (ClassBody.mapDecl (FunDecl.renumber σ)) := rfl

@[simp] theorem Class.find?_renumber (c : Class) (n : String) :
    (c.renumber σ).find? n = (c.find? n).map (Closure.renumber σ) := by
  unfold Class.find?
  rw [Class.bodies_renumber]
  induction c.bodies with
  | nil => rfl
  | cons b bs ih =>
      rw [List.map_cons, List.findSome?_cons, List.findSome?_cons, ClassBody.lookup_renumber, ih]
      cases b.methods.lookup n <;> rfl

@[simp] theorem Class.arity_renumber (c : Class) : (c.renumber σ).arity = c.arity := by
  unfold Class.arity
  rw [Class.find?_renumber]
  cases c.find? initializerName with
  | none => rfl
  | some f => exact f.arity_renumber

end values

/-! ### Heaps -/

namespace Heap

variable {σ : NodeId → NodeId} (h : Heap)

theorem slots_renumber (f : FrameId) : (h.renumber σ).slots f = Slots.renumber σ (h.slots f) := by
  unfold slots renumber mapDecl
  rw [Array.getD_eq_getD_getElem?, Array.getD_eq_getD_getElem?, Array.getElem?_map]
  cases h.frames[f]? <;> rfl

theorem define_slots_renumber (s : Slots) (n : String) (v : Value) :
    Slots.define (Slots.renumber σ s) n (v.renumber σ) = Slots.renumber σ (s.define n v) := by
  induction s with
  | nil => rfl
  | cons p s ih =>
      obtain ⟨m, u⟩ := p
      change Slots.define ((m, u.renumber σ) :: Slots.renumber σ s) n (v.renumber σ) = _
      unfold Slots.define
      split
      · rfl
      · rw [ih]
        rfl

theorem modify_renumber (a : Array Slots) (i : Nat) (n : String) (v : Value) :
    (a.map (Slots.renumber σ)).modify i (Slots.define · n (v.renumber σ)) =
      (a.modify i (Slots.define · n v)).map (Slots.renumber σ) := by
  refine Array.ext (by simp) fun j hj hj' => ?_
  simp only [Array.getElem_modify, Array.getElem_map]
  split
  · exact define_slots_renumber _ n v
  · rfl

theorem define_renumber (f : FrameId) (n : String) (v : Value) :
    (h.renumber σ).define f n (v.renumber σ) = (h.define f n v).renumber σ := by
  unfold define renumber mapDecl
  rw [modify_renumber]

theorem setField_renumber (i : Nat) (n : String) (v : Value) :
    (h.renumber σ).setField i n (v.renumber σ) = (h.setField i n v).renumber σ := by
  unfold setField renumber mapDecl
  rw [modify_renumber]

theorem newFrame_renumber (s : Slots) :
    (h.renumber σ).newFrame (Slots.renumber σ s) = ((h.newFrame s).1, (h.newFrame s).2.renumber σ) := by
  unfold newFrame renumber mapDecl
  simp

theorem newInstance_renumber :
    (h.renumber σ).newInstance = (h.newInstance.1, h.newInstance.2.renumber σ) := by
  unfold newInstance renumber mapDecl
  simp only [Array.size_map, Array.map_push]
  rfl

theorem newId_renumber : (h.renumber σ).newId = (h.newId.1, h.newId.2.renumber σ) := rfl

theorem binds_renumber (f : FrameId) (n : String) : (h.renumber σ).binds f n = h.binds f n := by
  rw [binds, slots_renumber, Slots.binds, Slots.lookup_renumber, Option.isSome_map, binds, Slots.binds]

theorem field?_renumber (i : Nat) (n : String) :
    (h.renumber σ).field? i n = (h.field? i n).map (Value.renumber σ) := by
  unfold field? renumber mapDecl
  rw [Array.getD_eq_getD_getElem?, Array.getElem?_map, Array.getD_eq_getD_getElem?]
  cases h.fields[i]? with
  | none => rfl
  | some s => exact s.lookup_renumber n

theorem findFrame?_renumber (env : Env) (n : String) : (h.renumber σ).findFrame? env n = h.findFrame? env n := by
  unfold findFrame?
  simp only [binds_renumber]

theorem search_renumber (env : Env) (n : String) :
    (h.renumber σ).search env n = (h.search env n).map (Value.renumber σ) := by
  rw [search_eq, search_eq, findFrame?_renumber]
  cases h.findFrame? env n with
  | none => rfl
  | some f => rw [Option.bind_some, Option.bind_some, slots_renumber, Slots.lookup_renumber]

theorem getAt_renumber (env : Env) (d : Nat) (n : String) :
    (h.renumber σ).getAt env d n = (h.getAt env d n).map (Value.renumber σ) := by
  unfold getAt
  cases frameAt env d with
  | error b => rfl
  | ok f =>
      simp only [bind, Except.bind]
      rw [slots_renumber, Slots.lookup_renumber]
      cases (h.slots f).lookup n <;> rfl

theorem bindingFrameAt_renumber (env : Env) (d : Nat) (n : String) :
    (h.renumber σ).bindingFrameAt env d n = h.bindingFrameAt env d n := by
  unfold bindingFrameAt
  simp only [binds_renumber]

end Heap

/-! ### Actions -/

section statements

variable (σ : NodeId → NodeId) (T T' : Std.HashMap NodeId Nat)

/-- The same end, with other numbers; the table was `T'` and is `T` with the other numbers. -/
inductive Renumbered (F : α → α') : EStateM.Result Exit Machine α → EStateM.Result Exit Machine α' → Prop
  | ok (a : α) (n : Machine) (h : n.distances = T') : Renumbered F (.ok a n) (.ok (F a) (n.renumber σ T))
  | error (e : Exit) (n : Machine) (h : n.distances = T') :
      Renumbered F (.error e n) (.error (e.renumber σ) (n.renumber σ T))

/-- An action and what it is with other numbers. -/
def Renumbers (F : α → α') (act : Action α) (act' : Action α') : Prop :=
  ∀ m, m.distances = T' → Renumbered σ T T' F (act m) (act' (m.renumber σ T))

end statements

variable {σ : NodeId → NodeId} {T T' : Std.HashMap NodeId Nat} {F : α → α'} {G : β → β'}

namespace Renumbers

theorem pure (a : α) : Renumbers σ T T' F (pure a) (pure (F a)) := fun m hm => .ok a m hm

theorem throw (e : Exit) : Renumbers σ T T' F (throw e) (throw (e.renumber σ)) := fun m hm => .error e m hm

theorem fail (fault : RuntimeFault) (line : Nat) : Renumbers σ T T' F (fail fault line) (fail fault line) :=
  throw _

theorem bind {act : Action α} {act' : Action α'} {f : α → Action β} {f' : α' → Action β'}
    (h : Renumbers σ T T' F act act') (hf : ∀ a, Renumbers σ T T' G (f a) (f' (F a))) :
    Renumbers σ T T' G (act >>= f) (act' >>= f') := by
  intro m hm
  have h := h m hm
  change Renumbered σ T T' G (EStateM.bind act f m) (EStateM.bind act' f' (m.renumber σ T))
  unfold EStateM.bind
  revert h
  generalize act m = r, act' (m.renumber σ T) = r'
  rintro (⟨a, n, hn⟩ | ⟨e, n, hn⟩)
  · exact hf a n hn
  · exact .error e n hn

/-- Looking at the machine. -/
theorem get {f : Machine → Action β} {f' : Machine → Action β'}
    (h : ∀ m, m.distances = T' → Renumbers σ T T' G (f m) (f' (m.renumber σ T))) :
    Renumbers σ T T' G (MonadState.get >>= f) (MonadState.get >>= f') := fun m hm => h m hm m hm

theorem sound {x : Except Inconsistency α} : Renumbers σ T T' F (sound x) (sound (x.map F)) := by
  cases x with
  | ok a => exact pure a
  | error b => exact throw _

theorem within (env : Env) {act : Action α} {act' : Action α'} (h : Renumbers σ T T' F act act') :
    Renumbers σ T T' F (within env act) (within env act') := by
  intro m hm
  have h := h { m with env := env } hm
  rw [within_eq, within_eq]
  change Renumbered σ T T' F _
    (mapState (fun n => { n with env := m.env }) (act' (Machine.renumber σ T { m with env := env })))
  revert h
  generalize act { m with env := env } = r, act' (Machine.renumber σ T { m with env := env }) = r'
  rintro (⟨a, n, hn⟩ | ⟨e, n, hn⟩)
  · exact .ok a { n with env := m.env } hn
  · exact .error e { n with env := m.env } hn

theorem deeper {act : Action α} {act' : Action α'} (h : Renumbers σ T T' F act act') :
    Renumbers σ T T' F (deeper act) (deeper act') := by
  intro m hm
  have h := h { m with depth := m.depth + 1 } hm
  rw [deeper_eq, deeper_eq]
  change Renumbered σ T T' F _ (mapState (fun n => { n with depth := n.depth - 1 })
    (act' (Machine.renumber σ T { m with depth := m.depth + 1 })))
  revert h
  generalize act { m with depth := m.depth + 1 } = r,
    act' (Machine.renumber σ T { m with depth := m.depth + 1 }) = r'
  rintro (⟨a, n, hn⟩ | ⟨e, n, hn⟩)
  · exact .ok a { n with depth := n.depth - 1 } hn
  · exact .error e { n with depth := n.depth - 1 } hn

theorem returning {body body' : Action Unit} (h : Renumbers σ T T' id body body') :
    Renumbers σ T T' (Value.renumber σ) (returning body) (returning body') := by
  intro m hm
  have h := h m hm
  unfold Action.returning
  revert h
  generalize body m = r, body' (m.renumber σ T) = r'
  rintro (⟨a, n, hn⟩ | ⟨e, n, hn⟩)
  · exact .ok Value.nil n hn
  · cases e with
    | returned v => exact .ok v n hn
    | failed e => exact .error _ n hn
    | refused fault => exact .error _ n hn
    | inconsistent b => exact .error _ n hn
    | exhausted => exact .error _ n hn

/-! ### The heap -/

theorem modifyHeap {f f' : Heap → Heap} (hf : ∀ h, f' (h.renumber σ) = (f h).renumber σ) :
    Renumbers σ T T' id (modifyHeap f) (modifyHeap f') := by
  intro m hm
  change Renumbered σ T T' id (.ok () { m with heap := f m.heap })
    (.ok () { m.renumber σ T with heap := f' (m.heap.renumber σ) })
  rw [hf]
  exact .ok () { m with heap := f m.heap } hm

theorem updateHeap {f : Heap → α × Heap} {f' : Heap → α' × Heap}
    (hf : ∀ h, f' (h.renumber σ) = (F (f h).1, (f h).2.renumber σ)) :
    Renumbers σ T T' F (updateHeap f) (updateHeap f') := by
  intro m hm
  change Renumbered σ T T' F (.ok (f m.heap).1 { m with heap := (f m.heap).2 })
    (.ok (f' (m.heap.renumber σ)).1 { m.renumber σ T with heap := (f' (m.heap.renumber σ)).2 })
  rw [hf]
  exact .ok (f m.heap).1 { m with heap := (f m.heap).2 } hm

theorem defineIn (f : FrameId) (n : String) (v : Value) :
    Renumbers σ T T' id (Action.modifyHeap (·.define f n v)) (Action.modifyHeap (·.define f n (v.renumber σ))) :=
  modifyHeap fun h => h.define_renumber f n v

theorem define (n : String) (v : Value) :
    Renumbers σ T T' id (define n v) (define n (v.renumber σ)) := by
  refine get fun m _ => ?_
  rw [show (m.renumber σ T).env = m.env from rfl]
  cases m.env with
  | nil => exact pure ()
  | cons f env => exact defineIn f n v

theorem nest (s : Slots) (env : Env) : Renumbers σ T T' id (nest s env) (nest (Slots.renumber σ s) env) :=
  bind (F := id) (updateHeap fun h => h.newFrame_renumber s) fun _ => pure _

theorem newId : Renumbers σ T T' id (Action.updateHeap Heap.newId) (Action.updateHeap Heap.newId) :=
  updateHeap Heap.newId_renumber

theorem newInstance : Renumbers σ T T' id (Action.updateHeap Heap.newInstance)
    (Action.updateHeap Heap.newInstance) := updateHeap Heap.newInstance_renumber

theorem newFunction (c : Closure) :
    Renumbers σ T T' (Value.renumber σ) (newFunction c) (newFunction (c.renumber σ)) :=
  bind newId fun i => pure (Value.function i c)

/-! ### Output and the clock -/

theorem printLine (v : Value) : Renumbers σ T T' id (printLine v) (printLine (v.renumber σ)) := by
  intro m hm
  unfold Action.printLine Machine.renumber
  dsimp only
  rw [Value.text_renumber]
  rcases m.sink.write (v.text ++ "\n").toUTF8 with ⟨_ | fault, sink⟩
  · exact .ok () { m with sink := sink } hm
  · exact .error (.refused fault) { m with sink := sink } hm

theorem readClock (clock : Nat → Nat) :
    Renumbers σ T T' (Value.renumber σ) (readClock clock) (readClock clock) :=
  fun m hm => .ok (Value.number _) { m with readings := m.readings + 1 } hm

/-! ### Names -/

theorem searchIn (env : Env) (t : Lexeme) :
    Renumbers σ T T' (Value.renumber σ) (searchIn env t) (searchIn env t) := by
  refine get fun m _ => ?_
  have hsearch : (m.renumber σ T).heap.search env t.text = (m.heap.search env t.text).map (Value.renumber σ) :=
    m.heap.search_renumber env t.text
  rw [hsearch]
  cases m.heap.search env t.text with
  | some v => exact pure v
  | none => exact fail _ _

theorem assignIn (env : Env) (t : Lexeme) (v : Value) :
    Renumbers σ T T' id (assignIn env t v) (assignIn env t (v.renumber σ)) := by
  refine get fun m _ => ?_
  have hfind : (m.renumber σ T).heap.findFrame? env t.text = m.heap.findFrame? env t.text :=
    m.heap.findFrame?_renumber env t.text
  rw [hfind]
  cases m.heap.findFrame? env t.text with
  | some f => exact defineIn f _ v
  | none => exact fail _ _

theorem valueAt (d : Nat) (n : String) :
    Renumbers σ T T' (Value.renumber σ) (valueAt d n) (valueAt d n) := by
  refine get fun m _ => ?_
  change Renumbers σ T T' _ _ (Action.sound ((m.heap.renumber σ).getAt m.env d n))
  rw [Heap.getAt_renumber]
  exact sound

theorem instanceInside (d : Nat) :
    Renumbers σ T T' (Value.renumber σ) (instanceInside d) (instanceInside d) := by
  cases d with
  | zero => exact throw _
  | succ inner => exact valueAt _ _

theorem assignAt (d : Nat) (n : String) (v : Value) :
    Renumbers σ T T' id (assignAt d n v) (assignAt d n (v.renumber σ)) := by
  refine get fun m _ => ?_
  change Renumbers σ T T' _ _ (Action.sound ((m.heap.renumber σ).bindingFrameAt m.env d n) >>= _)
  rw [Heap.bindingFrameAt_renumber]
  refine bind (F := id) ?_ fun f => defineIn f n v
  cases m.heap.bindingFrameAt m.env d n with
  | ok f => exact pure f
  | error b => exact throw _

variable (h : ∀ i, T[σ i]? = T'[i]?)

include h

theorem distance? (i : NodeId) : Renumbers σ T T' id (distance? i) (distance? (σ i)) := by
  refine get fun m hm => ?_
  change Renumbers σ T T' id (Pure.pure m.distances[i]?) (Pure.pure T[σ i]?)
  rw [h, hm]
  exact pure _

theorem read (look : Lookup) (r : Reference NodeId) :
    Renumbers σ T T' (Value.renumber σ) (read look r) (read look (r.map σ id)) := by
  cases look with
  | bySearch => exact get fun m _ => searchIn m.env r.name
  | byDistance =>
      refine bind (distance? h r.id) fun d => ?_
      cases d with
      | some d => exact valueAt d _
      | none => exact searchIn _ _

theorem write (look : Lookup) (r : Reference NodeId) (v : Value) :
    Renumbers σ T T' id (write look r v) (write look (r.map σ id) (v.renumber σ)) := by
  cases look with
  | bySearch => exact get fun m _ => assignIn m.env r.name v
  | byDistance =>
      refine bind (distance? h r.id) fun d => ?_
      cases d with
      | some d => exact assignAt d _ v
      | none => exact assignIn _ _ v

theorem readSuper (look : Lookup) (r : Reference NodeId) (t : Lexeme) :
    Renumbers σ T T' (Prod.map (Value.renumber σ) (Value.renumber σ)) (readSuper look r t)
      (readSuper look (r.map σ id) t) := by
  cases look with
  | bySearch =>
      refine get fun m _ => bind (searchIn m.env r.name) fun u => ?_
      exact get fun m _ => bind (searchIn m.env _) fun v => pure (u, v)
  | byDistance =>
      refine bind (distance? h r.id) fun d => ?_
      cases d with
      | some d => exact bind (valueAt d _) fun u => bind (instanceInside d) fun v => pure (u, v)
      | none => exact throw _

end Renumbers

/-! ### Evaluation -/

section evaluation

variable {S : Settings} {ev ev' : Expr NodeId → Action Value} {ex ex' : Stmt NodeId → Action Unit}

/-- Operators do not see numbers of nodes. -/
theorem computes_renumbers {line : Nat} {act act' : Action Value} (h : Action.ComputeAlike line line act act') :
    Renumbers σ T T' (Value.renumber σ) act act' := by
  cases h with
  | @value v hv =>
      have hpure : Renumbers σ T T' (Value.renumber σ) (pure v) (pure (v.renumber σ)) := .pure v
      rwa [hv.renumber] at hpure
  | fault fault => exact .fail fault line

theorem runAll_renumbers (hx : ∀ s, Renumbers σ T T' id (ex s) (ex' (s.map σ id))) (body : List (Stmt NodeId)) :
    Renumbers σ T T' id (runAll ex body) (runAll ex' (Stmt.mapAll σ id body)) := by
  induction body with
  | nil => exact .pure ()
  | cons s body ih => exact .bind (hx s) fun _ => ih

theorem evalEach_renumbers (he : ∀ e, Renumbers σ T T' (Value.renumber σ) (ev e) (ev' (e.map σ id)))
    (es : List (Expr NodeId)) :
    Renumbers σ T T' (List.map (Value.renumber σ)) (evalEach ev es) (evalEach ev' (Expr.mapEach σ id es)) := by
  induction es with
  | nil => exact .pure []
  | cons e es ih => exact .bind (he e) fun v => .bind ih fun vs => .pure (v :: vs)

theorem evalOptional_renumbers (he : ∀ e, Renumbers σ T T' (Value.renumber σ) (ev e) (ev' (e.map σ id))) :
    ∀ e, Renumbers σ T T' (Value.renumber σ) (evalOptional ev e) (evalOptional ev' (e.map (·.map σ id)))
  | none => .pure Value.nil
  | some e => he e

/-! ### Calls -/

theorem bindParams_renumber (params : List Lexeme) (vs : List Value) :
    bindParams params (vs.map (Value.renumber σ)) = Slots.renumber σ (bindParams params vs) := by
  suffices h : ∀ (ps : List (Lexeme × Value)) (s : Slots),
      (ps.map (Prod.map id (Value.renumber σ))).foldl (fun s p => s.define p.1.text p.2) (Slots.renumber σ s) =
        Slots.renumber σ (ps.foldl (fun s p => s.define p.1.text p.2) s) by
    unfold bindParams
    rw [List.zip_map_right]
    exact h _ []
  intro ps
  induction ps with
  | nil => exact fun _ => rfl
  | cons p ps ih =>
      intro s
      rw [List.map_cons, List.foldl_cons, List.foldl_cons, ← ih]
      exact congrArg (fun s => List.foldl _ s _) (Heap.define_slots_renumber s p.1.text p.2)

theorem Closure.invoke_renumbers (hx : ∀ s, Renumbers σ T T' id (ex s) (ex' (s.map σ id))) (c : Closure)
    (vs : List Value) :
    Renumbers σ T T' (Value.renumber σ) (c.invoke ex vs) ((c.renumber σ).invoke ex' (vs.map (Value.renumber σ))) := by
  obtain ⟨⟨name, params, body⟩, env, initializer⟩ := c
  unfold Closure.invoke
  have hparams : (Closure.renumber σ ⟨.mk name params body, env, initializer⟩).decl.params = params :=
    List.map_id params
  rw [hparams, bindParams_renumber]
  refine .bind (.nest _ env) fun inner => .bind (.returning (.within inner (runAll_renumbers hx body))) fun v => ?_
  cases initializer with
  | false => exact .pure v
  | true =>
      refine .get fun m _ => ?_
      change Renumbers σ T T' _ _ (Action.sound ((m.heap.renumber σ).getAt env 0 "this"))
      rw [Heap.getAt_renumber]
      exact .sound

theorem Closure.bindTo_renumbers (o : Value) (c : Closure) :
    Renumbers σ T T' (Closure.renumber σ) (c.bindTo o) ((c.renumber σ).bindTo (o.renumber σ)) :=
  .bind (.nest [("this", o)] c.env) fun env => .pure { c with env := env }

theorem Class.construct_renumbers (hx : ∀ s, Renumbers σ T T' id (ex s) (ex' (s.map σ id))) (c : Class)
    (vs : List Value) :
    Renumbers σ T T' (Value.renumber σ) (c.construct ex vs)
      ((c.renumber σ).construct ex' (vs.map (Value.renumber σ))) := by
  unfold Class.construct
  refine .bind .newInstance fun i => ?_
  rw [Class.find?_renumber]
  cases c.find? initializerName with
  | none => exact .pure (Value.instance_ i c)
  | some f =>
      refine .bind (Closure.bindTo_renumbers (.instance_ i c) f) fun b => ?_
      exact .bind (Closure.invoke_renumbers hx b vs) fun _ => .pure (Value.instance_ i c)

/-- What can be called, with other numbers. -/
def Callable.renumber (σ : NodeId → NodeId) : Callable → Callable
  | clock => clock
  | function c => .function (c.renumber σ)
  | cls c => .cls (c.renumber σ)

theorem Value.callable?_renumber (v : Value) :
    (v.renumber σ).callable? = v.callable?.map (Callable.renumber σ) := by cases v <;> rfl

theorem Callable.arity_renumber (k : Callable) : (k.renumber σ).arity = k.arity := by
  cases k with
  | clock => rfl
  | function c => exact c.arity_renumber
  | cls c => exact c.arity_renumber

theorem Callable.call_renumbers (hx : ∀ s, Renumbers σ T T' id (ex s) (ex' (s.map σ id))) (k : Callable)
    (vs : List Value) :
    Renumbers σ T T' (Value.renumber σ) (k.call S ex vs) ((k.renumber σ).call S ex' (vs.map (Value.renumber σ))) := by
  cases k with
  | clock => exact .readClock S.clock
  | function c => exact Closure.invoke_renumbers hx c vs
  | cls c => exact Class.construct_renumbers hx c vs

theorem Value.call_renumbers (hx : ∀ s, Renumbers σ T T' id (ex s) (ex' (s.map σ id))) (v : Value) (line : Nat)
    (vs : List Value) :
    Renumbers σ T T' (Value.renumber σ) (v.call S ex line vs)
      ((v.renumber σ).call S ex' line (vs.map (Value.renumber σ))) := by
  unfold Value.call
  rw [Value.callable?_renumber, List.length_map]
  cases v.callable? with
  | none => exact .fail _ _
  | some k =>
      dsimp only [Option.map_some]
      rw [Callable.arity_renumber]
      split
      · exact .fail _ _
      · refine .get fun m _ => ?_
        change Renumbers σ T T' _ _ (if S.callLimit.any (· ≤ m.depth) = true then _ else _)
        split
        · exact .fail _ _
        · exact .deeper (Callable.call_renumbers hx k vs)

/-! ### Properties -/

theorem bindMethod_renumbers (o : Value) (c : Closure) :
    Renumbers σ T T' (Value.renumber σ) (c.bindTo o >>= newFunction)
      ((c.renumber σ).bindTo (o.renumber σ) >>= newFunction) :=
  .bind (Closure.bindTo_renumbers o c) fun b => .newFunction b

theorem Value.property_renumbers (o : Value) (t : Lexeme) :
    Renumbers σ T T' (Value.renumber σ) (o.property t) ((o.renumber σ).property t) := by
  cases o with
  | instance_ i c =>
      refine .get fun m _ => ?_
      have hfield : (m.renumber σ T).heap.field? i t.text = (m.heap.field? i t.text).map (Value.renumber σ) :=
        m.heap.field?_renumber i t.text
      rw [hfield, Class.find?_renumber]
      cases m.heap.field? i t.text with
      | some v => exact .pure v
      | none =>
          cases c.find? t.text with
          | some f => exact bindMethod_renumbers (.instance_ i c) f
          | none => exact .fail _ _
  | _ => exact .fail _ _

theorem superMethod_renumbers (u o : Value) (t : Lexeme) :
    Renumbers σ T T' (Value.renumber σ) (superMethod u o t) (superMethod (u.renumber σ) (o.renumber σ) t) := by
  cases u with
  | cls c =>
      cases o with
      | instance_ i k =>
          change Renumbers σ T T' _ _ (superMethod (.cls (c.renumber σ)) (.instance_ i (k.renumber σ)) t)
          unfold superMethod
          dsimp only
          rw [Class.find?_renumber]
          cases c.find? t.text with
          | some f => exact bindMethod_renumbers (.instance_ i k) f
          | none => exact .fail _ _
      | _ => exact .throw _
  | _ => exact .throw _

/-! ### Expressions and statements -/

section nodes

variable (h : ∀ i, T[σ i]? = T'[i]?) (he : ∀ e, Renumbers σ T T' (Value.renumber σ) (ev e) (ev' (e.map σ id)))
  (hx : ∀ s, Renumbers σ T T' id (ex s) (ex' (s.map σ id)))

include h he hx

theorem Expr.evalWith_renumbers (e : Expr NodeId) :
    Renumbers σ T T' (Value.renumber σ) (e.evalWith S ev ex) ((e.map σ id).evalWith S ev' ex') := by
  cases e with
  | literal _ v =>
      have hv : Renumbers σ T T' (Value.renumber σ) (pure (Value.ofLiteral v))
          (pure ((Value.ofLiteral v).renumber σ)) := .pure _
      rwa [(Value.scalar_ofLiteral v).renumber] at hv
  | group _ inner => exact he inner
  | unary _ op t operand =>
      exact .bind (he operand) fun v => computes_renumbers (op.apply_alike v.resembles_renumber _ _)
  | binary _ op t left right =>
      exact .bind (he left) fun u => .bind (he right) fun v => computes_renumbers
        (op.apply_alike u.resembles_renumber v.resembles_renumber (u.equals_renumber v) _ _)
  | logical _ op _ left right =>
      refine .bind (he left) fun v => ?_
      rw [op.settledBy_resembling v.resembles_renumber]
      split
      · exact .pure v
      · exact he right
  | name r => exact .read h S.lookup r
  | assign r value => exact .bind (he value) fun v => .bind (.write h S.lookup r v) fun _ => .pure v
  | call _ callee t arguments =>
      refine .bind (he callee) fun v => .bind (evalEach_renumbers he arguments) fun vs => ?_
      exact Value.call_renumbers hx v t.line vs
  | get _ object t => exact .bind (he object) fun o => Value.property_renumbers o t
  | set _ object t value =>
      refine .bind (he object) fun o => ?_
      cases o with
      | instance_ i c =>
          refine .bind (he value) fun v => ?_
          exact .bind (.modifyHeap fun m => m.setField_renumber i t.text v) fun _ => .pure v
      | _ => exact .fail _ _
  | this r => exact .read h S.lookup r
  | super r t => exact .bind (.readSuper h S.lookup r t) fun o => superMethod_renumbers o.1 o.2 t

omit he hx in
theorem readSuperclass_renumbers (r : Reference NodeId) :
    Renumbers σ T T' (Class.renumber σ) (readSuperclass S r) (readSuperclass S (r.map σ id)) := by
  refine .bind (.read h S.lookup r) fun v => ?_
  cases v with
  | cls c => exact .pure c
  | _ => exact .fail _ _

omit h he hx in
theorem methodTable_renumber (ms : List (FunDecl NodeId)) (env : Env) :
    methodTable (FunDecl.mapEach σ id ms) env = (methodTable ms env).map fun p => (p.1, p.2.renumber σ) := by
  unfold methodTable
  rw [List.map_reverse]
  refine congrArg _ ?_
  induction ms with
  | nil => rfl
  | cons d ms ih =>
      rw [FunDecl.mapEach, List.map_cons, List.map_cons, List.map_cons, ih]
      refine congrArg (· :: _) ?_
      obtain ⟨name, params, body⟩ := d
      rfl

omit h he hx in
theorem bindClass_renumbers (t : Lexeme) (ms : List (FunDecl NodeId)) (env : Env) (parents : List ClassBody) :
    Renumbers σ T T' id
      (do
        let id ← Action.updateHeap Heap.newId
        Action.define t.text (.cls ⟨⟨id, t.text, methodTable ms env⟩, parents⟩))
      (do
        let i ← Action.updateHeap Heap.newId
        Action.define t.text (.cls ⟨⟨i, t.text, methodTable (FunDecl.mapEach σ id ms) env⟩,
          parents.map (ClassBody.mapDecl (FunDecl.renumber σ))⟩)) := by
  refine .bind .newId fun i => ?_
  rw [methodTable_renumber]
  exact .define t.text (.cls ⟨⟨i, t.text, methodTable ms env⟩, parents⟩)

omit he hx in
theorem defineClass_renumbers (t : Lexeme) (superclass : Option (Reference NodeId)) (ms : List (FunDecl NodeId)) :
    Renumbers σ T T' id (defineClass S t superclass ms)
      (defineClass S t (superclass.map (Reference.map σ id)) (FunDecl.mapEach σ id ms)) := by
  rw [defineClass_eq, defineClass_eq]
  refine .bind (F := Option.map (Class.renumber σ)) ?_ fun parent => ?_
  · cases superclass with
    | none => exact .pure none
    | some r => exact .bind (readSuperclass_renumbers h r) fun c => .pure (some c)
  refine .bind (.define t.text Value.nil) fun _ => .get fun m _ => ?_
  cases parent with
  | none => exact bindClass_renumbers t ms m.env []
  | some c =>
      refine .bind (.nest [("super", .cls c)] m.env) fun env => ?_
      exact bindClass_renumbers t ms env c.bodies

omit h he hx in
theorem repeatWhile_renumbers {c c' : Action Value} {body body' : Action Unit}
    (hc : Renumbers σ T T' (Value.renumber σ) c c') (hb : Renumbers σ T T' id body body') (limit : Nat) :
    Renumbers σ T T' id (repeatWhile c body limit) (repeatWhile c' body' limit) := by
  induction limit with
  | zero => exact .throw .exhausted
  | succ limit ih =>
      refine .bind hc fun v => ?_
      rw [Value.truthy_renumber]
      split
      · exact .bind hb fun _ => ih
      · exact .pure ()

theorem Stmt.execWith_renumbers (limit : Nat) (s : Stmt NodeId) :
    Renumbers σ T T' id (s.execWith S ev ex limit) ((s.map σ id).execWith S ev' ex' limit) := by
  cases s with
  | expression value => exact .bind (he value) fun _ => .pure ()
  | print value => exact .bind (he value) fun v => .printLine v
  | var t initializer => exact .bind (evalOptional_renumbers he initializer) fun v => .define t.text v
  | block body =>
      exact .get fun m _ => .bind (.nest [] m.env) fun env => .within env (runAll_renumbers hx body)
  | ite condition yes no =>
      cases no with
      | none =>
          refine .bind (he condition) fun v => ?_
          rw [Value.truthy_renumber]
          split
          · exact hx yes
          · exact .pure ()
      | some no =>
          refine .bind (he condition) fun v => ?_
          rw [Value.truthy_renumber]
          split
          · exact hx yes
          · exact hx no
  | «while» condition body => exact repeatWhile_renumbers (he condition) (hx body) limit
  | function d =>
      obtain ⟨name, params, body⟩ := d
      refine .get fun m _ => .bind (.newFunction ⟨.mk name params body, m.env, false⟩) fun v => ?_
      exact .define name.text v
  | ret _ value => exact .bind (evalOptional_renumbers he value) fun v => .throw (.returned v)
  | cls t superclass methods => exact defineClass_renumbers h t superclass methods

end nodes

/-- Evaluation does the same with other numbers, where the table has for them what it had for those before. -/
theorem evaluation_renumbers (S : Settings) (h : ∀ i, T[σ i]? = T'[i]?) (fuel : Nat) :
    (∀ e, Renumbers σ T T' (Value.renumber σ) (eval S fuel e) (eval S fuel (e.map σ id))) ∧
      ∀ s, Renumbers σ T T' id (exec S fuel s) (exec S fuel (s.map σ id)) := by
  induction fuel with
  | zero => exact ⟨fun _ => .throw .exhausted, fun _ => .throw .exhausted⟩
  | succ fuel ih =>
      obtain ⟨he, hx⟩ := ih
      refine ⟨fun e => ?_, fun s => ?_⟩
      · rw [eval_succ, eval_succ]
        exact Expr.evalWith_renumbers h he hx e
      · rw [exec_succ, exec_succ]
        exact Stmt.execWith_renumbers h he hx fuel s

end evaluation

end Lox
