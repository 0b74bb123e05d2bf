import Lox.Proofs.Orderly

/-! # Actions that keep order

An action that keeps recorders orderly, and all moments of which are orderly, can be put together from actions that
do (`Upholds`).  Of the single steps, a declaration binds a name in the innermost frame, which must be one where it
may be declared; every other change to a frame gives a name that is bound another value. -/

namespace Lox

open Traced

/-! ### Keeping order -/

section upholding

variable (o : Outset)

/-- A later recorder in the chain `env`: it is orderly, and so are its moments. -/
structure Recorder.Upheld (r r₀ : Recorder) (env : Env) : Prop where
  later : r₀.Before r
  begun : o.past <:+ r.past
  env : r.machine.env = env
  orderly : r.Orderly o
  moments : Throughout (Moment.Orderly o) r.past

/-- An end of an action: with a value of which something holds, or by an exit with a value of the run. -/
def Recorder.EndsUpheld {α : Type} (r₀ : Recorder) (env : Env) (post : Recorder → α → Prop) :
    EStateM.Result Exit Recorder α → Prop
  | .ok a s => s.Upheld o r₀ env ∧ post s a
  | .error e s => s.Upheld o r₀ env ∧ e.Genuine s

/-- An action that, begun in the chain `env` after the recorder `r₀`, keeps recorders orderly, and yields a value of
which something holds. -/
def Upholds {α : Type} (r₀ : Recorder) (env : Env) (t : Traced α) (post : Recorder → α → Prop) : Prop :=
  ∀ r : Recorder, r.Upheld o r₀ env → r₀.EndsUpheld o env post (t r)

end upholding

theorem Recorder.EndsUpheld.upheld {o : Outset} {r₀ : Recorder} {env : Env} {α : Type} {post : Recorder → α → Prop}
    {res : EStateM.Result Exit Recorder α} (h : r₀.EndsUpheld o env post res) : (endState res).Upheld o r₀ env := by
  cases res <;> exact h.1

theorem Recorder.EndsUpheld.of_ok {o : Outset} {r₀ : Recorder} {env : Env} {α : Type} {post : Recorder → α → Prop}
    {res : EStateM.Result Exit Recorder α} (h : r₀.EndsUpheld o env post res) {a : α} {s : Recorder}
    (hres : res = .ok a s) : s.Upheld o r₀ env ∧ post s a := by
  subst hres
  exact h

/-- A value of a run, as what an action yields. -/
def Recorder.Has (r : Recorder) (v : Value) : Prop := v.Genuine r

namespace Recorder.Upheld

variable {o : Outset} {r₀ r₁ r : Recorder} {env : Env}

theorem since (h : r.Upheld o r₁ env) (hb : r₀.Before r₁) : r.Upheld o r₀ env := { h with later := hb.trans h.later }

/-- The machine changes; the history does not. -/
theorem change (h : r.Upheld o r₀ env) {n : Machine} (henv : n.env = r.machine.env)
    (hgrows : r.machine.heap.Grows n.heap) (ho : Recorder.Orderly o ⟨n, r.past⟩) :
    Recorder.Upheld o ⟨n, r.past⟩ r₀ env :=
  ⟨h.later.trans ⟨List.suffix_refl _, hgrows⟩, h.begun, henv.trans h.env, ho, h.moments⟩

/-- Something happens, and the machine changes for it. -/
theorem happens (h : r.Upheld o r₀ env) {what : Happening} {n : Machine} (henv : n.env = r.machine.env)
    (hgrows : r.machine.heap.Grows n.heap) (ho : Recorder.Orderly o ⟨n, ⟨r.machine, what⟩ :: r.past⟩)
    (hwhat : what.Genuine o.settings r) : Recorder.Upheld o ⟨n, ⟨r.machine, what⟩ :: r.past⟩ r₀ env :=
  ⟨h.later.trans ⟨List.suffix_cons _ _, hgrows⟩, h.begun.trans (List.suffix_cons _ _), henv.trans h.env, ho,
    ⟨h.orderly, hwhat⟩, h.moments⟩

end Recorder.Upheld

namespace Upholds

variable {o : Outset} {r₀ r₁ : Recorder} {env : Env} {α β : Type} {post : Recorder → α → Prop}
  {post' : Recorder → β → Prop}

theorem ends_since (hb : r₀.Before r₁) {res : EStateM.Result Exit Recorder α} (h : r₁.EndsUpheld o env post res) :
    r₀.EndsUpheld o env post res := by
  cases res with
  | ok a s => exact ⟨h.1.since hb, h.2⟩
  | error e s => exact ⟨h.1.since hb, h.2⟩

theorem imp {t : Traced α} {weaker : Recorder → α → Prop} (h : Upholds o r₀ env t post)
    (hp : ∀ s a, post s a → weaker s a) : Upholds o r₀ env t weaker := by
  intro r hr
  have ht := h r hr
  cases hrun : t r with
  | ok a s =>
    rw [hrun] at ht
    exact ⟨ht.1, hp _ _ ht.2⟩
  | error e s =>
    rw [hrun] at ht
    exact ht

/-- A value of which something holds from now on. -/
theorem pure {a : α} (h : ∀ s, r₀.Before s → post s a) : Upholds o r₀ env (Pure.pure a) post :=
  fun r hr => ⟨hr, h r hr.later⟩

/-- One action after another, with what the first one comes to. -/
theorem bind_run {t : Traced α} {f : α → Traced β} (h : Upholds o r₀ env t post) {r : Recorder}
    (hr : r.Upheld o r₀ env)
    (hf : ∀ s a, t r = .ok a s → s.Upheld o r₀ env → post s a → r₀.EndsUpheld o env post' (f a s)) :
    r₀.EndsUpheld o env post' ((t >>= f) r) := by
  have ht := h r hr
  cases hrun : t r with
  | ok a s =>
    rw [hrun] at ht
    rw [bind_ok hrun]
    exact hf s a hrun ht.1 ht.2
  | error e s =>
    rw [hrun] at ht
    rw [bind_error hrun]
    exact ht

theorem bind {t : Traced α} {f : α → Traced β} (h : Upholds o r₀ env t post)
    (hf : ∀ r₁ a, r₀.Before r₁ → post r₁ a → Upholds o r₁ env (f a) post') : Upholds o r₀ env (t >>= f) post' :=
  fun _ hr => h.bind_run hr fun s a _ hs ha => ends_since hs.later (hf s a hs.later ha s { hs with later := .refl s })

theorem throw {e : Exit} (h : e.Genuine r₀) : Upholds o r₀ env (lift (MonadExcept.throw e : Action α)) post :=
  fun _ hr => ⟨hr, h.later hr.later⟩

theorem fail (fault : RuntimeFault) (line : Nat) :
    Upholds o r₀ env (lift (Action.fail fault line : Action α)) post := throw trivial

/-- An action that looks at the machine first. -/
theorem get {f : Machine → Action α}
    (h : ∀ r : Recorder, r.Upheld o r₀ env → r₀.EndsUpheld o env post (lift (f r.machine) r)) :
    Upholds o r₀ env (lift (MonadState.get >>= f)) post := fun r hr => h r hr

theorem bind_lift {act : Action α} {f : α → Action β} (h : Upholds o r₀ env (lift act) post)
    (hf : ∀ r₁ a, r₀.Before r₁ → post r₁ a → Upholds o r₁ env (lift (f a)) post') :
    Upholds o r₀ env (lift (act >>= f)) post' := by
  rw [Keeps.lift_bind]
  exact h.bind hf

/-- A change to the heap that keeps it orderly. -/
theorem modifyHeap {f : Heap → Heap} (h : ∀ r : Recorder, r.Upheld o r₀ env → r.machine.heap.Grows (f r.machine.heap) ∧
      Recorder.Orderly o ⟨{ r.machine with heap := f r.machine.heap }, r.past⟩) :
    Upholds o r₀ env (lift (Action.modifyHeap f)) fun _ _ => True :=
  fun r hr => ⟨hr.change rfl (h r hr).1 (h r hr).2, trivial⟩

/-- Something happens for which neither a frame nor a class is made. -/
theorem note {what : Happening} {t : Traced α} (hscope : what.scope? = none) (hfills : what.Fills [])
    (hmakes : ¬ what.IsMaking) (hwhat : ∀ r, r₀.Before r → what.Genuine o.settings r)
    (h : ∀ r₁ k, r₀.Before r₁ → o.Reaches r₁.past k → k.what = what → k.machine.env = env → Upholds o r₁ env t post) :
    Upholds o r₀ env (Traced.note what >>= fun _ => t) post := by
  intro r hr
  rw [Traced.note_bind]
  have hin := hr.happens rfl (.refl _) (hr.orderly.note what hscope hfills hmakes) (hwhat r hr.later)
  obtain ⟨new, hnew⟩ := hr.begun
  exact ends_since hin.later (h _ ⟨r.machine, what⟩ hin.later
    ⟨⟨r.machine, what⟩ :: new, congrArg _ hnew.symm, List.mem_cons_self⟩ rfl hr.env _ { hin with later := .refl _ })

/-- Something happens for which a frame is made. -/
theorem opens {what : Happening} (names : List String) {slots : Slots} {inside : Env} {t : Env → Traced α}
    (hscope : what.scope? = some names) (hmakes : ¬ what.IsMaking) (hn : ∀ n, slots.binds n = true → n ∈ names)
    (hslots : ∀ n v, slots.lookup n = some v → v.Genuine r₀) (hfills : what.Fills slots)
    (hwhat : ∀ r, r₀.Before r → what.Genuine o.settings r)
    (h : ∀ r₁ k, r₀.Before r₁ → k ∈ r₁.past → k.what = what → k.machine.env = env →
      Upholds o r₁ env (t (k.frame :: inside)) post) :
    Upholds o r₀ env (Traced.note what >>= fun _ => lift (Action.nest slots inside) >>= t) post := by
  intro r hr
  have hrun : (Traced.note what >>= fun _ => lift (Action.nest slots inside) >>= t) r =
      t (r.machine.heap.frames.size :: inside)
        ⟨{ r.machine with heap := (r.machine.heap.newFrame slots).2 }, ⟨r.machine, what⟩ :: r.past⟩ := rfl
  have hopens := hr.orderly.opens hscope hmakes hn (fun n v hv => (hslots n v hv).later hr.later) hfills
  have hin := hr.happens (n := { r.machine with heap := (r.machine.heap.newFrame slots).2 }) rfl (.newFrame _ _)
    hopens (hwhat r hr.later)
  rw [hrun]
  exact ends_since hin.later
    (h _ ⟨r.machine, what⟩ hin.later List.mem_cons_self rfl hr.env _ { hin with later := .refl _ })

/-- An action in another scope chain. -/
theorem within {inside : Env} {t : Traced α} (hpost : ∀ {s s' : Recorder} {a : α}, s.Before s' → post s a → post s' a)
    (h : Upholds o r₀ inside t post) : Upholds o r₀ env (Traced.within inside t) post := by
  have henv {r : Recorder} {e e' : Env} (hr : r.Upheld o r₀ e) :
      Recorder.Upheld o ⟨{ r.machine with env := e' }, r.past⟩ r₀ e' ∧
        r.Before ⟨{ r.machine with env := e' }, r.past⟩ :=
    ⟨⟨hr.later.trans ⟨List.suffix_refl _, .refl _⟩, hr.begun, rfl, hr.orderly.machine rfl, hr.moments⟩,
      List.suffix_refl _, .refl _⟩
  intro r hr
  have ht := h _ (henv hr).1
  unfold Traced.within
  cases hrun : t ⟨{ r.machine with env := inside }, r.past⟩ with
  | ok a s =>
    rw [hrun] at ht
    exact ⟨hr.env ▸ (henv ht.1).1, hpost (henv ht.1).2 ht.2⟩
  | error e s =>
    rw [hrun] at ht
    exact ⟨hr.env ▸ (henv ht.1).1, ht.2.later (henv ht.1).2⟩

/-- The body of a function yields a value of the run. -/
theorem returning {t : Traced Unit} {any : Recorder → Unit → Prop} (h : Upholds o r₀ env t any) :
    Upholds o r₀ env (Traced.returning t) Recorder.Has := by
  intro r hr
  have ht := h r hr
  unfold Traced.returning
  cases hrun : t r with
  | ok _ s =>
    rw [hrun] at ht
    exact ⟨ht.1, trivial⟩
  | error e s =>
    rw [hrun] at ht
    cases e with
    | returned v => exact ht
    | _ => exact ⟨ht.1, trivial⟩

/-- A call, if not too many are open. -/
theorem attempt {S : Settings} {callee : Callable} {values : List Value} {closing : Lexeme} {t : Traced α}
    (hpost : ∀ {s s' : Recorder} {a : α}, s.Before s' → post s a → post s' a)
    (hwhat : ∀ r, r₀.Before r → (Happening.calls callee values closing).Genuine o.settings r)
    (h : Upholds o r₀ env t post) : Upholds o r₀ env (Traced.attempt S callee values closing t) post := by
  have hdepth {r : Recorder} (depth : Nat) (hr : r.Upheld o r₀ env) :
      Recorder.Upheld o ⟨{ r.machine with depth := depth }, r.past⟩ r₀ env :=
    hr.change rfl (.refl _) (hr.orderly.machine rfl)
  intro r hr
  cases hlimit : S.callLimit.any (· ≤ r.machine.depth) with
  | true =>
    rw [Traced.attempt_full hlimit]
    exact fail _ _ r hr
  | false =>
    rw [Traced.attempt_room hlimit]
    have hbegin := hr.happens rfl (.refl _) (hr.orderly.note (.calls callee values closing) rfl trivial id)
      (hwhat r hr.later)
    have ht := h _ (hdepth (r.machine.depth + 1) hbegin)
    have hend {s : Recorder} (hs : s.Upheld o r₀ env) : Recorder.Upheld o
        ⟨{ s.machine with depth := s.machine.depth - 1 }, ⟨s.machine, .leaves⟩ :: s.past⟩ r₀ env :=
      hdepth _ (hs.happens rfl (.refl _) (hs.orderly.note .leaves rfl trivial id) trivial)
    have hlater (s : Recorder) :
        s.Before ⟨{ s.machine with depth := s.machine.depth - 1 }, ⟨s.machine, .leaves⟩ :: s.past⟩ :=
      ⟨List.suffix_cons _ _, .refl _⟩
    unfold Traced.calling
    cases hrun : t ⟨{ r.machine with depth := r.machine.depth + 1 },
      ⟨r.machine, .calls callee values closing⟩ :: r.past⟩ with
    | ok a s =>
      rw [hrun] at ht
      exact ⟨hend ht.1, hpost (hlater s) ht.2⟩
    | error e s =>
      rw [hrun] at ht
      exact ⟨hend ht.1, ht.2.later (hlater s)⟩

/-! ### Single steps -/

theorem newId : Upholds o r₀ env (lift (Action.updateHeap Heap.newId)) fun _ _ => True :=
  fun _ hr => ⟨hr.change rfl (.newId _) hr.orderly.newId, trivial⟩

theorem newFunction {f : Closure} (h : f.Genuine r₀.past) :
    Upholds o r₀ env (lift (Action.newFunction f)) Recorder.Has :=
  bind_lift newId fun _ _ h₁ _ => pure fun _ h₂ => h.mono (h₁.trans h₂).past.subset

/-- An instance that is made is one of those that there are. -/
theorem newInstance :
    Upholds o r₀ env (lift (Action.updateHeap Heap.newInstance)) fun s i => i < s.machine.heap.fields.size := by
  refine fun r hr => ⟨hr.change rfl (.newInstance _) hr.orderly.newInstance, ?_⟩
  change r.machine.heap.fields.size < (r.machine.heap.fields.push []).size
  rw [Array.size_push]
  exact Nat.lt_succ_self _

theorem setField {i : Nat} {n : String} {v : Value} (hset : SetIn o.settings r₀.past i n v) (h : v.Genuine r₀) :
    Upholds o r₀ env (lift (Action.modifyHeap (·.setField i n v))) fun _ _ => True :=
  modifyHeap fun _ hr =>
    ⟨.setField _ i n v, hr.orderly.setField (hset.mono hr.later.past) (h.later hr.later)⟩

theorem define {n : String} (hn : Ordinary n) (hd : Declarable o r₀.past env n) {v : Value} (h : v.Genuine r₀) :
    Upholds o r₀ env (lift (Action.define n v)) fun _ _ => True := by
  refine get fun r hr => ?_
  have hd : Declarable o r.past r.machine.env n := hr.env.symm ▸ hd.mono hr.later.past
  cases henv : r.machine.env with
  | nil => exact ⟨hr, trivial⟩
  | cons f outer =>
    rw [henv] at hd
    exact ⟨hr.change rfl (.define _ f hn v) (hr.orderly.define hn (.inr ⟨outer, hd⟩) (h.later hr.later)), trivial⟩

/-- A name that is bound gets another value. -/
theorem redefine {f : FrameId} {n : String} (hn : Ordinary n) {v : Value} (h : v.Genuine r₀) {r : Recorder}
    (hr : r.Upheld o r₀ env) (hb : r.machine.heap.binds f n = true) :
    r₀.EndsUpheld o env (fun _ _ => True) (lift (Action.modifyHeap (·.define f n v)) r) :=
  ⟨hr.change rfl (.define _ f hn v) (hr.orderly.define hn (.inl hb) (h.later hr.later)), trivial⟩

/-- The value of a field that is set. -/
theorem fieldOf (i : Nat) (name : Lexeme) :
    Upholds o r₀ env (lift (Traced.fieldOf i name)) fun s v? => ∀ v ∈ v?, v.Genuine s :=
  fun _ hr => ⟨hr, fun v hv => (hr.orderly.fields i name.text v hv).1⟩

theorem searchIn (env' : Env) (name : Lexeme) : Upholds o r₀ env (lift (Action.searchIn env' name)) Recorder.Has := by
  refine get fun r hr => ?_
  cases hv : r.machine.heap.search env' name.text with
  | none => exact ⟨hr, trivial⟩
  | some v =>
    obtain ⟨f, -, hf⟩ := List.exists_of_findSome?_eq_some hv
    exact ⟨hr, hr.orderly.slots f name.text v hf⟩

/-- A value that is found at a distance. -/
theorem getAt {chain : Machine → Env} {d : Nat} {n : String} :
    Upholds o r₀ env (lift (MonadState.get >>= fun m => Action.sound (m.heap.getAt (chain m) d n))) Recorder.Has := by
  refine get fun r hr => ?_
  cases hv : r.machine.heap.getAt (chain r.machine) d n with
  | error b => exact ⟨hr, trivial⟩
  | ok v => exact ⟨hr, hr.orderly.getAt hv⟩

/-- The instance that an initializer is bound to is in the frame that it is bound in. -/
theorem ownInstance (f : Closure) : Upholds o r₀ env (lift (Traced.ownInstance f)) fun s v => s.Has v ∧
    ∀ object, f.BoundTo s.past object → v = object := by
  refine get fun r hr => ?_
  cases hv : r.machine.heap.getAt f.env 0 "this" with
  | error b => exact ⟨hr, trivial⟩
  | ok v =>
    refine ⟨hr, hr.orderly.getAt hv, fun object hbound => ?_⟩
    obtain ⟨k, hk, method, hwhat, rfl⟩ := hbound
    have hfills := hr.orderly.fills k hk
    have hframe : (k.frame :: method.env)[0]? = some k.frame := rfl
    rw [hwhat] at hfills
    rw [Heap.getAt_of_frame "this" _ hframe, hfills.2] at hv
    exact (Except.ok.inj hv).symm

theorem distance? (id : NodeId) : Upholds o r₀ env (lift (Action.distance? id)) fun _ _ => True :=
  fun _ hr => ⟨hr, trivial⟩

theorem read (look : Lookup) (ref : Reference NodeId) :
    Upholds o r₀ env (lift (Action.read look ref)) Recorder.Has := by
  cases look with
  | bySearch => exact get fun r hr => searchIn r.machine.env ref.name r hr
  | byDistance =>
    refine bind_lift (distance? _) fun _ d _ _ => ?_
    cases d with
    | some d => exact getAt
    | none => exact searchIn _ _

theorem instanceInside (d : Nat) : Upholds o r₀ env (lift (Action.instanceInside d)) Recorder.Has := by
  cases d with
  | zero => exact throw trivial
  | succ inner => exact getAt

theorem readSuper (look : Lookup) (ref : Reference NodeId) (method : Lexeme) :
    Upholds o r₀ env (lift (Action.readSuper look ref method)) fun s p => s.Has p.1 ∧ s.Has p.2 := by
  cases look with
  | bySearch =>
    refine get fun r hr => bind_lift (searchIn _ _) (fun r₁ u _ hu => ?_) r hr
    refine get fun s hs => bind_lift (searchIn _ _) (fun r₂ v h₂ hv => ?_) s hs
    exact pure fun _ h₃ => ⟨Value.Genuine.later (h₂.trans h₃) hu, Value.Genuine.later h₃ hv⟩
  | byDistance =>
    refine bind_lift (distance? _) fun _ d _ _ => ?_
    cases d with
    | none => exact throw trivial
    | some d =>
      refine bind_lift getAt fun _ u _ hu => bind_lift (instanceInside d) fun _ v h₂ hv => ?_
      exact pure fun _ h₃ => ⟨Value.Genuine.later (h₂.trans h₃) hu, Value.Genuine.later h₃ hv⟩

theorem assignIn (env' : Env) {name : Lexeme} (hn : Ordinary name.text) {v : Value} (h : v.Genuine r₀) :
    Upholds o r₀ env (lift (Action.assignIn env' name v)) fun _ _ => True := by
  refine get fun r hr => ?_
  cases hf : r.machine.heap.findFrame? env' name.text with
  | none => exact ⟨hr, trivial⟩
  | some f =>
    have hb := List.find?_some hf
    exact redefine hn h hr hb

theorem assignAt (d : Nat) {n : String} (hn : Ordinary n) {v : Value} (h : v.Genuine r₀) :
    Upholds o r₀ env (lift (Action.assignAt d n v)) fun _ _ => True := by
  refine get fun r hr => ?_
  cases hf : r.machine.env[d]? with
  | none =>
    have herror :
        r.machine.heap.bindingFrameAt r.machine.env d n = .error (.chainEnds d (r.machine.env.length - 1)) := by
      simp [Heap.bindingFrameAt, Heap.frameAt, hf, Bind.bind, Except.bind]
    rw [herror]
    exact ⟨hr, trivial⟩
  | some f =>
    rw [Heap.bindingFrameAt_of_frame n _ hf]
    split
    · rename_i hb
      exact redefine hn h hr hb
    · exact ⟨hr, trivial⟩

theorem write (look : Lookup) (ref : Reference NodeId) (hn : Ordinary ref.name.text) {v : Value}
    (h : v.Genuine r₀) : Upholds o r₀ env (lift (Action.write look ref v)) fun _ _ => True := by
  cases look with
  | bySearch => exact get fun r hr => assignIn r.machine.env hn h r hr
  | byDistance =>
    refine bind_lift (distance? _) fun _ d h₁ _ => ?_
    cases d with
    | some d => exact assignAt d hn (h.later h₁)
    | none => exact assignIn _ hn (h.later h₁)

theorem readClock (clock : Nat → Nat) : Upholds o r₀ env (lift (Action.readClock clock)) Recorder.Has :=
  fun _ hr => ⟨hr.change rfl (.refl _) (hr.orderly.machine rfl), trivial⟩

theorem print {v : Value} (h : v.Genuine r₀) : Upholds o r₀ env (Traced.print v) fun _ _ => True := by
  refine note rfl trivial id (fun r hr => h.later hr) fun r₁ _ _ _ _ _ r hr => ?_
  have hsink (sink : Sink) : Recorder.Upheld o ⟨{ r.machine with sink := sink }, r.past⟩ r₁ env :=
    hr.change rfl (.refl _) (hr.orderly.machine rfl)
  unfold lift Action.printLine
  dsimp only
  cases r.machine.sink.write (v.text ++ "\n").toUTF8 with
  | mk fault sink => cases fault <;> exact ⟨hsink sink, trivial⟩

/-- What an operator computes holds no code and no objects. -/
theorem computes {act : Action Value} {line : Nat} (h : act.Computes line) :
    Upholds o r₀ env (lift act) Recorder.Has := by
  cases h with
  | value hv => exact pure fun _ _ => hv.genuine
  | fault fault => exact fail fault line

theorem superclass (S : Settings) (superclass : Option (Reference NodeId)) :
    Upholds o r₀ env (lift (superclass.mapM (readSuperclass S))) fun s parent => ∀ k ∈ parent, k.Made s.past := by
  cases superclass with
  | none => exact pure fun _ _ _ hk => nomatch hk
  | some ref =>
    have hread : Upholds o r₀ env (lift (readSuperclass S ref)) fun s k => k.Made s.past := by
      refine bind_lift (read _ ref) fun _ v _ hv => ?_
      cases v with
      | cls k => exact pure fun _ h₂ => Class.Made.mono h₂.past.subset hv
      | _ => exact fail _ _
    exact bind_lift hread fun _ k _ hk => pure fun _ h₂ _ hj => Option.some.inj hj ▸ hk.mono h₂.past.subset

end Upholds

end Lox
