import Lox.Proofs.Worlds

/-! # Actions in step

`Lockstep U S T T' w env b act act' Q` says that two actions, begun in machines whose heaps are the
world `w` and whose scope chain is `env`, end alike: both normally, with results that satisfy `Q` in a
later world, or both by exits that match.  Either way the heaps match again, and the scope chain and the
number of open calls are what they were.  The rules below follow the way actions are built; `Lockstep.bind`
carries a world from one step to the next. -/

namespace Lox

open World Lox.Action

variable {α α' β β' : Type}

/-- At some place, with the heap, the output and the distances of `n`, an assignment to `r` finds the name
not bound in the innermost frame. -/
def TooEarly (S : Settings) (r : Reference NodeId) (n : Machine) : Prop :=
  ∃ (v : Value) (env : Env) (depth : Nat),
    Action.write S.lookup r v { n with env := env, depth := depth } =
      .error (.inconsistent (.unbound r.name.text 0)) { n with env := env, depth := depth }

variable (U : Links) (S : Settings) (T T' : Std.HashMap NodeId Nat)

/-- Two machines in step: their heaps match and all else is the same, but for the distances. -/
structure InStep (w : World) (m m' : Machine) : Prop where
  good : w.Good U
  left : m.heap = w.left
  right : m'.heap = w.right
  env : m'.env = m.env
  depth : m'.depth = m.depth
  sink : m'.sink = m.sink
  readings : m'.readings = m.readings
  distances_left : m.distances = T
  distances_right : m'.distances = T'

/-- What every action keeps. -/
structure Kept (m n : Machine) : Prop where
  env : n.env = m.env
  depth : n.depth = m.depth

theorem Kept.refl (m : Machine) : Kept m m := ⟨rfl, rfl⟩

theorem Kept.trans {m n k : Machine} (h₁ : Kept m n) (h₂ : Kept n k) : Kept m k :=
  ⟨h₂.env.trans h₁.env, h₂.depth.trans h₁.depth⟩

/-- Exits that match.  Only code in a function returns, and the one breach that two runs may both come
to is an early assignment. -/
inductive ExitMatch (w : World) (inFunction : Bool) (n : Machine) : Exit → Exit → Prop
  | returned {v v' : Value} (hb : inFunction = true) (h : ValueMatch U w v v') :
      ExitMatch w inFunction n (.returned v) (.returned v')
  | failed (fault : RuntimeFault) {i i' : NodeId} {l l' : Nat} (h : U.site i l i' l') :
      ExitMatch w inFunction n (.failed ⟨fault, l⟩) (.failed ⟨fault, l'⟩)
  | refused (fault : SinkFault) : ExitMatch w inFunction n (.refused fault) (.refused fault)
  | early {r r' : Reference NodeId} (h : U.early r r') (ht : TooEarly S r n) :
      ExitMatch w inFunction n (.inconsistent (.unbound r.name.text 0))
        (.inconsistent (.unbound r'.name.text 0))
  | exhausted : ExitMatch w inFunction n .exhausted .exhausted

/-- Two outcomes that match, of actions begun in the world `w` and, on the left, in `m`. -/
def Agree (w : World) (inFunction : Bool) (m : Machine) (Q : World → α → α' → Prop) :
    EStateM.Result Exit Machine α → EStateM.Result Exit Machine α' → Prop
  | .ok a n, .ok a' n' => ∃ w₁, w ≤ w₁ ∧ InStep U T T' w₁ n n' ∧ Kept m n ∧ Q w₁ a a'
  | .error e n, .error e' n' =>
    ∃ w₁, w ≤ w₁ ∧ InStep U T T' w₁ n n' ∧ Kept m n ∧ ExitMatch U S w₁ inFunction n e e'
  | _, _ => False

/-- Actions that end alike when they are begun in step. -/
def Lockstep (w : World) (env : Env) (inFunction : Bool) (act : Action α) (act' : Action α')
    (Q : World → α → α' → Prop) : Prop :=
  ∀ m m', InStep U T T' w m m' → m.env = env → Agree U S T T' w inFunction m Q (act m) (act' m')

variable {U S T T'} {w : World} {env : Env} {b : Bool} {Q : World → α → α' → Prop}
  {R : World → β → β' → Prop}

/-- An exit does not depend on the scope chain and the number of open calls. -/
theorem ExitMatch.relocate {n : Machine} {e e' : Exit} (h : ExitMatch U S w b n e e') (env : Env)
    (depth : Nat) : ExitMatch U S w b { n with env := env, depth := depth } e e' := by
  cases h with
  | returned hb h => exact .returned hb h
  | failed fault h => exact .failed fault h
  | refused fault => exact .refused fault
  | early h ht => exact .early h ht
  | exhausted => exact .exhausted

theorem Lockstep.imp {act : Action α} {act' : Action α'} {Q' : World → α → α' → Prop}
    (h : Lockstep U S T T' w env b act act' Q)
    (hq : ∀ w₁, w ≤ w₁ → ∀ a a', Q w₁ a a' → Q' w₁ a a') :
    Lockstep U S T T' w env b act act' Q' := by
  intro m m' hm he
  have h := h m m' hm he
  revert h
  cases act m <;> cases act' m' <;> intro h
  · obtain ⟨w₁, hw, hs, hk, hQ⟩ := h
    exact ⟨w₁, hw, hs, hk, hq _ hw _ _ hQ⟩
  · exact h.elim
  · exact h.elim
  · exact h

theorem Lockstep.pure {a : α} {a' : α'} (h : Q w a a') :
    Lockstep U S T T' w env b (pure a) (pure a') Q :=
  fun m _ hm _ => ⟨w, le_rfl, hm, .refl m, h⟩

theorem Lockstep.bind {act : Action α} {act' : Action α'} {f : α → Action β} {f' : α' → Action β'}
    (h : Lockstep U S T T' w env b act act' Q)
    (hf : ∀ w₁, w ≤ w₁ → ∀ a a', Q w₁ a a' → Lockstep U S T T' w₁ env b (f a) (f' a') R) :
    Lockstep U S T T' w env b (act >>= f) (act' >>= f') R := by
  intro m m' hm he
  have h := h m m' hm he
  change Agree U S T T' w b m R (EStateM.bind act f m) (EStateM.bind act' f' m')
  unfold EStateM.bind
  revert h
  cases act m with
  | error e n =>
      cases act' m' with
      | error e' n' => exact id
      | ok a' n' => exact False.elim
  | ok a n =>
      cases act' m' with
      | error e' n' => exact False.elim
      | ok a' n' =>
          rintro ⟨w₁, hw, hs, hk, hQ⟩
          have h₂ := hf w₁ hw a a' hQ n n' hs (hk.env.trans he)
          dsimp only
          revert h₂
          cases f a n <;> cases f' a' n' <;> intro h₂
          · obtain ⟨w₂, hw₂, hs₂, hk₂, hR⟩ := h₂
            exact ⟨w₂, hw.trans hw₂, hs₂, hk.trans hk₂, hR⟩
          · exact h₂.elim
          · exact h₂.elim
          · obtain ⟨w₂, hw₂, hs₂, hk₂, hR⟩ := h₂
            exact ⟨w₂, hw.trans hw₂, hs₂, hk.trans hk₂, hR⟩

/-- Looking at the machine: both see machines in step. -/
theorem Lockstep.get {f : Machine → Action β} {f' : Machine → Action β'}
    (h : ∀ m m', InStep U T T' w m m' → m.env = env →
      Lockstep U S T T' w env b (f m) (f' m') R) :
    Lockstep U S T T' w env b (MonadState.get >>= f) (MonadState.get >>= f') R :=
  fun m m' hm he => h m m' hm he m m' hm he

theorem Lockstep.fail (fault : RuntimeFault) {i i' : NodeId} {l l' : Nat} (h : U.site i l i' l') :
    Lockstep U S T T' w env b (fail fault l) (fail fault l') Q :=
  fun m _ hm _ => ⟨w, le_rfl, hm, .refl m, .failed fault h⟩

theorem Lockstep.returned {v v' : Value} (h : ValueMatch U w v v') :
    Lockstep U S T T' w env true (throw (.returned v)) (throw (.returned v')) Q :=
  fun m _ hm _ => ⟨w, le_rfl, hm, .refl m, .returned rfl h⟩

theorem Lockstep.exhausted :
    Lockstep U S T T' w env b (throw .exhausted) (throw .exhausted) Q :=
  fun m _ hm _ => ⟨w, le_rfl, hm, .refl m, .exhausted⟩

/-! ### Brackets -/

theorem Lockstep.within {inner : Env} {act : Action α} {act' : Action α'}
    (h : Lockstep U S T T' w inner b act act' Q) :
    Lockstep U S T T' w env b (within inner act) (within inner act') Q := by
  intro m m' hm _
  have h := h { m with env := inner } { m' with env := inner }
    { hm with env := rfl } rfl
  unfold Action.within
  dsimp only
  revert h
  cases act { m with env := inner } <;> cases act' { m' with env := inner } <;> intro h
  · obtain ⟨w₁, hw, hs, hk, hQ⟩ := h
    exact ⟨w₁, hw, { hs with env := hm.env }, ⟨rfl, hk.depth⟩, hQ⟩
  · exact h.elim
  · exact h.elim
  · obtain ⟨w₁, hw, hs, hk, hx⟩ := h
    exact ⟨w₁, hw, { hs with env := hm.env }, ⟨rfl, hk.depth⟩, hx.relocate m.env _⟩

theorem Lockstep.deeper {act : Action α} {act' : Action α'}
    (h : Lockstep U S T T' w env b act act' Q) :
    Lockstep U S T T' w env b (deeper act) (deeper act') Q := by
  intro m m' hm he
  have h := h { m with depth := m.depth + 1 } { m' with depth := m'.depth + 1 }
    { hm with depth := congrArg (· + 1) hm.depth } he
  unfold Action.deeper
  revert h
  cases act { m with depth := m.depth + 1 } <;> cases act' { m' with depth := m'.depth + 1 } <;> intro h
  · obtain ⟨w₁, hw, hs, hk, hQ⟩ := h
    refine ⟨w₁, hw, { hs with depth := congrArg (· - 1) hs.depth }, ⟨hk.env, ?_⟩, hQ⟩
    exact congrArg (· - 1) hk.depth
  · exact h.elim
  · exact h.elim
  · obtain ⟨w₁, hw, hs, hk, hx⟩ := h
    refine ⟨w₁, hw, { hs with depth := congrArg (· - 1) hs.depth }, ⟨hk.env, ?_⟩, hx.relocate _ _⟩
    exact congrArg (· - 1) hk.depth

/-- A call ends the `return` that leaves its body, so no `return` leaves the call. -/
theorem Lockstep.returning {body body' : Action Unit} {P : World → Unit → Unit → Prop}
    (h : Lockstep U S T T' w env true body body' P) :
    Lockstep U S T T' w env b (returning body) (returning body') (ValueMatch U) := by
  intro m m' hm he
  have h := h m m' hm he
  unfold Action.returning
  revert h
  cases body m with
  | ok a n =>
      cases body' m' with
      | error e' n' => exact False.elim
      | ok a' n' =>
          rintro ⟨w₁, hw, hs, hk, -⟩
          exact ⟨w₁, hw, hs, hk, .nil⟩
  | error e n =>
      cases body' m' with
      | ok a' n' => exact False.elim
      | error e' n' =>
          rintro ⟨w₁, hw, hs, hk, hx⟩
          cases hx with
          | returned _ hv => exact ⟨w₁, hw, hs, hk, hv⟩
          | failed fault h => exact ⟨w₁, hw, hs, hk, .failed fault h⟩
          | refused fault => exact ⟨w₁, hw, hs, hk, .refused fault⟩
          | early h ht => exact ⟨w₁, hw, hs, hk, .early h ht⟩
          | exhausted => exact ⟨w₁, hw, hs, hk, .exhausted⟩

/-! ### Changes of the heap -/

/-- A change of both heaps that leads to a later world. -/
theorem Lockstep.updateHeap {f : Heap → α × Heap} {f' : Heap → α' × Heap} {v : World} (hw : w ≤ v)
    (hl : (f w.left).2 = v.left) (hr : (f' w.right).2 = v.right) (hg : w.Good U → v.Good U)
    (hQ : w.Good U → Q v (f w.left).1 (f' w.right).1) :
    Lockstep U S T T' w env b (updateHeap f) (updateHeap f') Q := by
  intro m m' hm _
  have hq := hQ hm.good
  rw [← hm.left, ← hm.right] at hq
  exact ⟨v, hw, { hm with
    good := hg hm.good
    left := (congrArg (fun h => (f h).2) hm.left).trans hl
    right := (congrArg (fun h => (f' h).2) hm.right).trans hr }, ⟨rfl, rfl⟩, hq⟩

theorem Lockstep.modifyHeap {f f' : Heap → Heap} {v : World} {P : World → Unit → Unit → Prop}
    (hw : w ≤ v) (hl : f w.left = v.left) (hr : f' w.right = v.right) (hg : w.Good U → v.Good U)
    (hP : P v () ()) : Lockstep U S T T' w env b (modifyHeap f) (modifyHeap f') P :=
  @Lockstep.updateHeap _ _ _ _ _ _ _ _ _ _ (fun h => ((), f h)) (fun h => ((), f' h)) v hw hl hr hg fun _ => hP

/-- A new frame inside a chain, made for a new level. -/
theorem Lockstep.nest {Γ : Levels} {outer : Env} (hc : w.Chain Γ outer) {l : Level}
    (hp : l.role.Proper U) {s s' : Slots} (hs : SlotsMatch U w l.role s s')
    (hb : ∀ n ∈ l.ready, s.binds n = true) :
    Lockstep U S T T' w env b (nest s outer) (nest s' outer)
      (fun w₁ e e' => e' = e ∧ w₁.Chain (l :: Γ) e) := by
  have hle := w.le_addFrame l.role s s'
  refine Lockstep.bind (Q := fun w₁ f f' => f' = f ∧ w₁.Chain (l :: Γ) (f :: outer)) ?_ ?_
  · refine Lockstep.updateHeap hle rfl rfl (fun hg => hg.addFrame hp hs) fun hg => ?_
    refine ⟨hg.frames_right.trans hg.frames_left.symm, ?_⟩
    refine .level (role_addFrame hg l.role s s') (fun n hn => ?_) (hc.mono hle)
    simp only [World.addFrame, Heap.binds, Heap.slots_newFrame]
    simpa [Heap.newFrame] using hb n hn
  · rintro w₁ - f f' ⟨rfl, hf⟩
    exact .pure ⟨rfl, hf⟩

/-- A declaration binds its name, and its twin, in the frames of the innermost level.  The values need to
match only once they are bound. -/
theorem Lockstep.define {Γ Γ' : Levels} {n n' : String} (hd : Γ.Declare n n' Γ')
    (hc : w.Chain Γ env) {v v' : Value}
    (hv : ∀ w₁, w ≤ w₁ → w₁.Chain Γ' env → ValueMatch U w₁ v v') :
    Lockstep U S T T' w env b (define n v) (define n' v') (fun w₁ _ _ => w₁.Chain Γ' env) := by
  refine Lockstep.get fun m m' hm he => ?_
  rw [hm.env, he]
  cases hd with
  | globals =>
      cases hc with
      | globals h =>
          have hle := w.le_define globalFrame n n v v'
          have hc : (w.define globalFrame n n v v').Chain [] [globalFrame] := .globals (Le.role hle h)
          exact Lockstep.modifyHeap hle rfl rfl
            (fun hg => hg.define (r := .globals) h trivial trivial (hv _ hle hc)) hc
  | @level declared twin ready Γ n hn =>
      cases hc with
      | @level _ _ f env hr hb hc =>
          have hle := w.le_define f n (twin n) v v'
          have hc : (w.define f n (twin n) v v').Chain (⟨.names declared twin, n :: ready⟩ :: Γ)
              (f :: env) := by
            refine .level (Le.role hle hr) (fun k hk => ?_) (hc.mono hle)
            rcases List.mem_cons.mp hk with rfl | hk
            · have hlt := (List.getElem?_eq_some_iff.mp hr).1
              exact w.left.binds_define_self (hm.good.frames_left ▸ hlt) k v
            · exact hle.binds f k (hb k hk)
          exact Lockstep.modifyHeap hle rfl rfl
            (fun hg => hg.define (r := .names declared twin) hr hn trivial (hv _ hle hc)) hc

theorem Lockstep.newId :
    Lockstep U S T T' w env b (Action.updateHeap Heap.newId) (Action.updateHeap Heap.newId)
      (fun _ i i' => i' = i) :=
  Lockstep.updateHeap (v := w.takeId) (w.le_withFields _ _ _ _) rfl rfl Good.takeId
    fun hg => hg.nextId

theorem Lockstep.newInstance :
    Lockstep U S T T' w env b (Action.updateHeap Heap.newInstance) (Action.updateHeap Heap.newInstance)
      (fun _ i i' => i' = i) :=
  Lockstep.updateHeap (v := w.addInstance) (w.le_withFields _ _ _ _) rfl rfl Good.addInstance
    fun hg => hg.fields_size

theorem Lockstep.newFunction (c c' : Closure) :
    Lockstep U S T T' w env b (newFunction c) (newFunction c')
      (fun _ v v' => ∃ i, v = .function i c ∧ v' = .function i c') := by
  refine Lockstep.bind .newId fun w₁ _ i i' hi => ?_
  subst hi
  exact .pure ⟨i', rfl, rfl⟩

theorem Lockstep.setField (i : Nat) (n : String) {v v' : Value} (hv : ValueMatch U w v v') :
    Lockstep U S T T' w env b (Action.modifyHeap (·.setField i n v))
      (Action.modifyHeap (·.setField i n v')) (fun _ _ _ => True) :=
  Lockstep.modifyHeap (v := w.setField i n v v') (w.le_withFields _ _ _ _) rfl rfl
    (fun hg => hg.setField i n hv) trivial

/-! ### Output and the clock -/

theorem Lockstep.printLine {v v' : Value} (hv : ValueMatch U w v v') :
    Lockstep U S T T' w env b (printLine v) (printLine v') (fun _ _ _ => True) := by
  rintro ⟨heap, env, distances, depth, sink, readings⟩
    ⟨heap', env', distances', depth', sink', readings'⟩ hm -
  obtain rfl : sink' = sink := hm.sink
  unfold Action.printLine
  dsimp only
  rw [hv.text]
  cases sink'.write (v.text ++ "\n").toUTF8 with
  | mk fault sink =>
      cases fault with
      | none => exact ⟨w, le_rfl, { hm with sink := rfl }, ⟨rfl, rfl⟩, trivial⟩
      | some fault => exact ⟨w, le_rfl, { hm with sink := rfl }, ⟨rfl, rfl⟩, .refused fault⟩

theorem Lockstep.readClock (clock : Nat → Nat) :
    Lockstep U S T T' w env b (readClock clock) (readClock clock) (ValueMatch U) := by
  intro m m' hm _
  unfold Action.readClock
  rw [hm.readings]
  exact ⟨w, le_rfl, { hm with readings := rfl }, ⟨rfl, rfl⟩, .number _⟩

end Lox
