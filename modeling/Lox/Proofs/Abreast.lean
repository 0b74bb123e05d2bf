import Lox.Proofs.Lockstep
import Lox.Proofs.Partners

/-! # Actions abreast

Two actions run abreast when they end alike from machines that stand beside each other: both normally, with results
that satisfy a relation, or both by exits that are the same but for braces (`EndsAbreast`).  The second action may have
frames to make that the first has not, and needs more fuel for them: two conditions say whether the first or the
second action may run out of fuel alone.  The rules below follow the way actions are built. -/

namespace Lox

open Lox.Action

variable {α α' β β' : Type}

section statements

variable (U : Tables)

/-- Two machines beside each other: their heaps are, and all else is the same but for scope chains and
distances. -/
structure Abreast (w : Partners) (m m' : Machine) : Prop where
  heap : HeapBeside U w m.heap m'.heap
  depth : m'.depth = m.depth
  sink : m'.sink = m.sink
  readings : m'.readings = m.readings
  left : m.distances = U.left
  right : m'.distances = U.right

/-- Exits that are the same but for braces in code, scope chains and the distances that a breach tells. -/
inductive ExitBeside (w : Partners) : Exit → Exit → Prop
  | returned {v v' : Value} (h : ValueBeside U w v v') : ExitBeside w (.returned v) (.returned v')
  | failed (e : RuntimeError) : ExitBeside w (.failed e) (.failed e)
  | refused (fault : SinkFault) : ExitBeside w (.refused fault) (.refused fault)
  | inconsistent {b b' : Inconsistency} (h : b'.bare = b.bare) : ExitBeside w (.inconsistent b) (.inconsistent b')
  | exhausted : ExitBeside w .exhausted .exhausted

/-- The ends of two actions begun in `m` and `m'`.  The first may run out of fuel alone if `p` holds, the second if
`q` does. -/
inductive EndsAbreast (p q : Prop) (w : Partners) (m m' : Machine) (Q : Partners → α → α' → Prop) :
    EStateM.Result Exit Machine α → EStateM.Result Exit Machine α' → Prop
  | ok {w₁ : Partners} {a : α} {a' : α'} {n n' : Machine} (hw : w <+: w₁) (h : Abreast U w₁ n n')
      (hk : Kept m n) (hk' : Kept m' n') (hQ : Q w₁ a a') : EndsAbreast p q w m m' Q (.ok a n) (.ok a' n')
  | error {w₁ : Partners} {e e' : Exit} {n n' : Machine} (hw : w <+: w₁) (h : Abreast U w₁ n n')
      (hk : Kept m n) (hk' : Kept m' n') (hx : ExitBeside U w₁ e e') :
      EndsAbreast p q w m m' Q (.error e n) (.error e' n')
  | left (hp : p) (n : Machine) (r : EStateM.Result Exit Machine α') :
      EndsAbreast p q w m m' Q (.error .exhausted n) r
  | right (hq : q) (r : EStateM.Result Exit Machine α) (n' : Machine) :
      EndsAbreast p q w m m' Q r (.error .exhausted n')

/-- Actions that end alike when they are begun in machines beside each other, with given scope chains. -/
def Together (p q : Prop) (w : Partners) (env env' : Env) (act : Action α) (act' : Action α')
    (Q : Partners → α → α' → Prop) : Prop :=
  ∀ m m', Abreast U w m m' → m.env = env → m'.env = env' → EndsAbreast U p q w m m' Q (act m) (act' m')

end statements

variable {U : Tables} {p q : Prop} {w : Partners} {env env' : Env} {Q : Partners → α → α' → Prop}
  {R : Partners → β → β' → Prop}

/-! ### Sequences -/

/-- What follows an end may have begun earlier. -/
theorem EndsAbreast.trans {w₁ : Partners} {m m' n n' : Machine} (hw : w <+: w₁) (hk : Kept m n) (hk' : Kept m' n')
    {r : EStateM.Result Exit Machine α} {r' : EStateM.Result Exit Machine α'}
    (h : EndsAbreast U p q w₁ n n' Q r r') : EndsAbreast U p q w m m' Q r r' := by
  cases h with
  | ok hw₁ h hk₁ hk₁' hQ => exact .ok (hw.trans hw₁) h (hk.trans hk₁) (hk'.trans hk₁') hQ
  | error hw₁ h hk₁ hk₁' hx => exact .error (hw.trans hw₁) h (hk.trans hk₁) (hk'.trans hk₁') hx
  | left hp => exact .left hp _ _
  | right hq => exact .right hq _ _

theorem Together.pure {a : α} {a' : α'} (h : Q w a a') : Together U p q w env env' (pure a) (pure a') Q :=
  fun m m' hm _ _ => .ok List.prefix_rfl hm (.refl m) (.refl m') h

theorem Together.throw {e e' : Exit} (h : ExitBeside U w e e') :
    Together U p q w env env' (throw e) (throw e') Q :=
  fun m m' hm _ _ => .error List.prefix_rfl hm (.refl m) (.refl m') h

theorem Together.bind {act : Action α} {act' : Action α'} {f : α → Action β} {f' : α' → Action β'}
    (h : Together U p q w env env' act act' Q)
    (hf : ∀ w₁, w <+: w₁ → ∀ a a', Q w₁ a a' → Together U p q w₁ env env' (f a) (f' a') R) :
    Together U p q w env env' (act >>= f) (act' >>= f') R := by
  intro m m' hm he he'
  have h := h m m' hm he he'
  change EndsAbreast U p q w m m' R (EStateM.bind act f m) (EStateM.bind act' f' m')
  unfold EStateM.bind
  revert h
  generalize act m = r, act' m' = r'
  rintro (⟨hw, hn, hk, hk', hQ⟩ | ⟨hw, hn, hk, hk', hx⟩ | ⟨hp, n, r⟩ | ⟨hq, r, n⟩)
  · exact (hf _ hw _ _ hQ _ _ hn (hk.env.trans he) (hk'.env.trans he')).trans hw hk hk'
  · exact .error hw hn hk hk' hx
  · exact .left hp n _
  · exact .right hq _ n

/-- Looking at the machine: both see machines beside each other. -/
theorem Together.get {f : Machine → Action β} {f' : Machine → Action β'}
    (h : ∀ m m', Abreast U w m m' → m.env = env → m'.env = env' →
      Together U p q w env env' (f m) (f' m') R) :
    Together U p q w env env' (MonadState.get >>= f) (MonadState.get >>= f') R :=
  fun m m' hm he he' => h m m' hm he he' m m' hm he he'

theorem Together.fail (fault : RuntimeFault) (line : Nat) :
    Together U p q w env env' (fail fault line) (fail fault line) Q := .throw (.failed _)

/-- Look-ups that find related things, or come to the same breach. -/
theorem Together.sound {P : α → α → Prop} {x x' : Except Inconsistency α} (h : FoundBeside P x x')
    {Q : Partners → α → α → Prop} (hQ : ∀ a a', P a a' → Q w a a') :
    Together U p q w env env' (sound x) (sound x') Q := by
  match x, x', h with
  | .ok a, .ok a', h => exact .pure (hQ a a' h)
  | .error b, .error b', h => exact .throw (.inconsistent h)

/-! ### Brackets -/

theorem Together.within {inner inner' : Env} {act : Action α} {act' : Action α'}
    (h : Together U p q w inner inner' act act' Q) :
    Together U p q w env env' (within inner act) (within inner' act') Q := by
  intro m m' hm _ _
  have h := h { m with env := inner } { m' with env := inner' } { hm with } rfl rfl
  unfold Action.within
  dsimp only
  revert h
  generalize act { m with env := inner } = r, act' { m' with env := inner' } = r'
  rintro (⟨hw, hn, hk, hk', hQ⟩ | ⟨hw, hn, hk, hk', hx⟩ | ⟨hp, n, r⟩ | ⟨hq, r, n⟩)
  · exact .ok hw { hn with } ⟨rfl, hk.depth⟩ ⟨rfl, hk'.depth⟩ hQ
  · exact .error hw { hn with } ⟨rfl, hk.depth⟩ ⟨rfl, hk'.depth⟩ hx
  · exact .left hp _ _
  · exact .right hq _ _

theorem Together.deeper {act : Action α} {act' : Action α'} (h : Together U p q w env env' act act' Q) :
    Together U p q w env env' (deeper act) (deeper act') Q := by
  intro m m' hm he he'
  have h := h { m with depth := m.depth + 1 } { m' with depth := m'.depth + 1 }
    { hm with depth := congrArg (· + 1) hm.depth } he he'
  unfold Action.deeper
  revert h
  generalize act { m with depth := m.depth + 1 } = r, act' { m' with depth := m'.depth + 1 } = r'
  rintro (⟨hw, hn, hk, hk', hQ⟩ | ⟨hw, hn, hk, hk', hx⟩ | ⟨hp, n, r⟩ | ⟨hq, r, n⟩)
  · exact .ok hw { hn with depth := congrArg (· - 1) hn.depth } ⟨hk.env, congrArg (· - 1) hk.depth⟩
      ⟨hk'.env, congrArg (· - 1) hk'.depth⟩ hQ
  · exact .error hw { hn with depth := congrArg (· - 1) hn.depth } ⟨hk.env, congrArg (· - 1) hk.depth⟩
      ⟨hk'.env, congrArg (· - 1) hk'.depth⟩ hx
  · exact .left hp _ _
  · exact .right hq _ _

/-- The value of a `return`, or `nil`. -/
theorem Together.returning {body body' : Action Unit} {P : Partners → Unit → Unit → Prop}
    (h : Together U p q w env env' body body' P) :
    Together U p q w env env' (returning body) (returning body') (ValueBeside U) := by
  intro m m' hm he he'
  have h := h m m' hm he he'
  unfold Action.returning
  revert h
  generalize body m = r, body' m' = r'
  rintro (⟨hw, hn, hk, hk', -⟩ | ⟨hw, hn, hk, hk', hx⟩ | ⟨hp, n, r⟩ | ⟨hq, r, n⟩)
  · exact .ok hw hn hk hk' .nil
  · cases hx with
    | returned hv => exact .ok hw hn hk hk' hv
    | failed e => exact .error hw hn hk hk' (.failed e)
    | refused fault => exact .error hw hn hk hk' (.refused fault)
    | inconsistent hb => exact .error hw hn hk hk' (.inconsistent hb)
    | exhausted => exact .error hw hn hk hk' .exhausted
  · exact .left hp n _
  · exact .right hq _ n

/-- The second action makes a frame and runs inside it, the first does not. -/
theorem Together.inExtra {act : Action α} {act' : Action α'}
    (h : ∀ f', Together U p q w env (f' :: env') act act' Q) :
    Together U p q w env env' act (do
      let inner ← nest [] (← MonadState.get).env
      Action.within inner act') Q := by
  intro m m' hm he he'
  obtain ⟨heap', chain', distances', depth', sink', readings'⟩ := m'
  dsimp only at he'
  subst he'
  have h := h heap'.frames.size m ⟨(heap'.newFrame []).2, heap'.frames.size :: chain', distances', depth', sink',
    readings'⟩ { hm with heap := hm.heap.newFrame_right [] } he rfl
  change EndsAbreast U p q w m _ Q (act m) (Action.within (heap'.frames.size :: chain') act'
    ⟨(heap'.newFrame []).2, chain', distances', depth', sink', readings'⟩)
  unfold Action.within
  dsimp only
  revert h
  generalize act m = r, act' _ = r'
  rintro (⟨hw, hn, hk, hk', hQ⟩ | ⟨hw, hn, hk, hk', hx⟩ | ⟨hp, n, r⟩ | ⟨hq, r, n⟩)
  · exact .ok hw { hn with } hk ⟨rfl, hk'.depth⟩ hQ
  · exact .error hw { hn with } hk ⟨rfl, hk'.depth⟩ hx
  · exact .left hp _ _
  · exact .right hq _ _

/-! ### Changes of the heap -/

/-- A change of both heaps that keeps them beside each other, perhaps with more partners. -/
theorem Together.updateHeap {f : Heap → α × Heap} {f' : Heap → α' × Heap}
    (h : ∀ h h', HeapBeside U w h h' → ∃ w₁, w <+: w₁ ∧ HeapBeside U w₁ (f h).2 (f' h').2 ∧
      Q w₁ (f h).1 (f' h').1) :
    Together U p q w env env' (updateHeap f) (updateHeap f') Q := by
  intro m m' hm _ _
  obtain ⟨w₁, hw, hh, hQ⟩ := h m.heap m'.heap hm.heap
  exact .ok hw { hm with heap := hh } ⟨rfl, rfl⟩ ⟨rfl, rfl⟩ hQ

/-- A change of both heaps that keeps them beside each other, with the partners there are. -/
theorem Together.modifyHeap {f f' : Heap → Heap}
    (h : ∀ h h', HeapBeside U w h h' → HeapBeside U w (f h) (f' h')) :
    Together U p q w env env' (modifyHeap f) (modifyHeap f') (fun _ _ _ => True) :=
  fun m m' hm _ _ =>
    .ok List.prefix_rfl { hm with heap := h m.heap m'.heap hm.heap } ⟨rfl, rfl⟩ ⟨rfl, rfl⟩ trivial

/-- Both make a frame, with slots beside each other. -/
theorem Together.nest {Γ : Layers} {outer outer' : Env} (ha : Aligned w Γ outer outer') {s s' : Slots}
    (hs : SlotsBeside U w s s') :
    Together U p q w env env' (nest s outer) (nest s' outer') (fun w₁ => Aligned w₁ (.shared :: Γ)) := by
  refine .bind (Q := fun w₁ f f' => w <+: w₁ ∧ w₁[f]? = some f') (.updateHeap fun h h' hh => ?_) ?_
  · have hw : w <+: w ++ [h'.frames.size] := List.prefix_append _ _
    refine ⟨_, hw, hh.newFrame hs, hw, ?_⟩
    simp [Heap.newFrame, hh.size]
  · rintro w₁ - f f' ⟨hw, hf⟩
    exact .pure (.shared hf (ha.mono hw))

/-- Both bind a name in the innermost frame, which they share. -/
theorem Together.define {Γ : Layers} (ho : Γ.Open) (ha : Aligned w Γ env env') (n : String) {v v' : Value}
    (hv : ValueBeside U w v v') :
    Together U p q w env env' (define n v) (define n v') (fun _ _ _ => True) := by
  refine .get fun m m' _ he he' => ?_
  have hf := ha.innermost ho
  rw [he, he']
  cases env with
  | nil =>
      cases env' with
      | nil => exact .pure trivial
      | cons f' env' => exact nomatch hf
  | cons f env =>
      cases env' with
      | nil => exact nomatch hf
      | cons f' env' =>
          cases hf with
          | some hf => exact .modifyHeap fun h h' hh => hh.define hf n hv

theorem Together.newId :
    Together U p q w env env' (Action.updateHeap Heap.newId) (Action.updateHeap Heap.newId)
      (fun _ i i' => i' = i) :=
  .updateHeap fun _ _ hh => ⟨w, List.prefix_rfl, hh.newId, hh.nextId⟩

theorem Together.newInstance :
    Together U p q w env env' (Action.updateHeap Heap.newInstance) (Action.updateHeap Heap.newInstance)
      (fun _ i i' => i' = i) :=
  .updateHeap fun _ _ hh => ⟨w, List.prefix_rfl, hh.newInstance, hh.fields_size⟩

theorem Together.newFunction {c c' : Closure} (hc : ClosureBeside U w c c') :
    Together U p q w env env' (newFunction c) (newFunction c') (ValueBeside U) := by
  refine .bind .newId fun w₁ hw i i' hi => ?_
  subst hi
  exact .pure (.function i' (hc.mono (.refl U) hw))

theorem Together.setField (i : Nat) (n : String) {v v' : Value} (hv : ValueBeside U w v v') :
    Together U p q w env env' (Action.modifyHeap (·.setField i n v)) (Action.modifyHeap (·.setField i n v'))
      (fun _ _ _ => True) :=
  .modifyHeap fun _ _ hh => hh.setField i n hv

/-! ### Output and the clock -/

theorem Together.printLine {v v' : Value} (hv : ValueBeside U w v v') :
    Together U p q w env env' (printLine v) (printLine v') (fun _ _ _ => True) := by
  rintro ⟨heap, chain, distances, depth, sink, readings⟩
    ⟨heap', chain', distances', depth', sink', readings'⟩ hm - -
  obtain rfl : sink' = sink := hm.sink
  unfold Action.printLine
  dsimp only
  rw [hv.text]
  rcases sink'.write (v.text ++ "\n").toUTF8 with ⟨_ | fault, sink⟩
  · exact .ok List.prefix_rfl { hm with sink := rfl } ⟨rfl, rfl⟩ ⟨rfl, rfl⟩ trivial
  · exact .error List.prefix_rfl { hm with sink := rfl } ⟨rfl, rfl⟩ ⟨rfl, rfl⟩ (.refused fault)

theorem Together.readClock (clock : Nat → Nat) :
    Together U p q w env env' (readClock clock) (readClock clock) (ValueBeside U) := by
  intro m m' hm _ _
  unfold Action.readClock
  rw [hm.readings]
  exact .ok List.prefix_rfl { hm with readings := rfl } ⟨rfl, rfl⟩ ⟨rfl, rfl⟩ (.number _)

/-! ### Names -/

section names

variable {Γ : Layers}

theorem Together.valueAt (ha : Aligned w Γ env env') (d : Nat) (n : String) :
    Together U p q w env env' (valueAt d n) (valueAt (Γ.outward d) n) (ValueBeside U) := by
  refine .get fun m m' hm he he' => ?_
  rw [he, he']
  exact .sound (hm.heap.getAt ha d n) fun _ _ hv => hv

/-- A search among the globals. -/
theorem Together.searchGlobals (t : Lexeme) :
    Together U p q w env env' (searchIn [globalFrame] t) (searchIn [globalFrame] t) (ValueBeside U) := by
  refine .get fun m m' hm _ _ => ?_
  have hl := hm.heap.lookup hm.heap.globals t.text
  simp only [Heap.search, List.findSome?_cons, List.findSome?_nil]
  revert hl
  generalize (m.heap.slots globalFrame).lookup t.text = o, (m'.heap.slots globalFrame).lookup t.text = o'
  rintro (⟨hv⟩ | _)
  · exact .pure hv
  · exact .fail _ _

/-- An assignment to a global. -/
theorem Together.assignGlobal (t : Lexeme) {v v' : Value} (hv : ValueBeside U w v v') :
    Together U p q w env env' (assignIn [globalFrame] t v) (assignIn [globalFrame] t v')
      (fun _ _ _ => True) := by
  refine .get fun m m' hm _ _ => ?_
  have hb := hm.heap.binds hm.heap.globals t.text
  simp only [Heap.findFrame?, List.find?_cons, List.find?_nil, hb]
  split <;> rename_i hf
  · split at hf
    · obtain rfl := Option.some.inj hf
      exact .modifyHeap fun h h' hh => hh.define hh.globals _ hv
    · exact nomatch hf
  · exact .fail _ _

/-- A use of a name whose distances fit. -/
theorem Together.read (ha : Aligned w Γ env env') {k : UseKind} {r : Reference NodeId} (hr : U.Fits Γ (k, r)) :
    Together U p q w env env' (read .byDistance r) (read .byDistance r) (ValueBeside U) := by
  refine .get fun m m' hm _ _ => ?_
  rw [hm.left, hm.right, hr.moved]
  cases U.left[r.id]? with
  | none => exact .searchGlobals r.name
  | some d => exact .valueAt ha d r.name.text

theorem Together.assignAt (ha : Aligned w Γ env env') (d : Nat) (n : String) {v v' : Value}
    (hv : ValueBeside U w v v') :
    Together U p q w env env' (assignAt d n v) (assignAt (Γ.outward d) n v') (fun _ _ _ => True) := by
  refine .get fun m m' hm he he' => ?_
  rw [he, he']
  refine .bind (Q := fun w₁ f f' => w <+: w₁ ∧ w₁[f]? = some f')
    (.sound (hm.heap.bindingFrameAt ha d n) fun _ _ hf => ⟨List.prefix_rfl, hf⟩) ?_
  rintro w₁ - f f' ⟨hw, hf⟩
  exact .modifyHeap fun h h' hh => hh.define hf n (hv.mono (.refl U) hw)

theorem Together.write (ha : Aligned w Γ env env') {k : UseKind} {r : Reference NodeId} (hr : U.Fits Γ (k, r))
    {v v' : Value} (hv : ValueBeside U w v v') :
    Together U p q w env env' (write .byDistance r v) (write .byDistance r v') (fun _ _ _ => True) := by
  refine .get fun m m' hm _ _ => ?_
  rw [hm.left, hm.right, hr.moved]
  cases U.left[r.id]? with
  | none => exact .assignGlobal r.name hv
  | some d => exact .assignAt ha d r.name.text hv

theorem Together.instanceInside (ha : Aligned w Γ env env') {d : Nat} (hd : Γ.Adjoins d) :
    Together U p q w env env' (instanceInside d) (instanceInside (Γ.outward d)) (ValueBeside U) := by
  cases d with
  | zero =>
      rw [show Γ.outward 0 = 0 from hd]
      exact .throw (.inconsistent rfl)
  | succ inner =>
      rw [show Γ.outward (inner + 1) = Γ.outward inner + 1 from hd]
      exact .valueAt ha inner "this"

theorem Together.readSuper (ha : Aligned w Γ env env') {r : Reference NodeId} (hr : U.Fits Γ (.super, r))
    (t : Lexeme) :
    Together U p q w env env' (readSuper .byDistance r t) (readSuper .byDistance r t)
      (fun w₁ x x' => ValueBeside U w₁ x.1 x'.1 ∧ ValueBeside U w₁ x.2 x'.2) := by
  refine .get fun m m' hm _ _ => ?_
  rw [hm.left, hm.right, hr.moved]
  cases hd : U.left[r.id]? with
  | none => exact .throw (.inconsistent rfl)
  | some d =>
      dsimp only [Option.map_some]
      refine .bind (.valueAt ha d "super") fun w₁ hw₁ u u' hu => ?_
      refine .bind (.instanceInside (ha.mono hw₁) (hr.adjacent rfl d hd)) fun w₂ hw₂ v v' hv => ?_
      exact .pure ⟨hu.mono (.refl U) hw₂, hv⟩

end names

end Lox
