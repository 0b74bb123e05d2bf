import Lox.Proofs.Evaluation

/-! # Looking names up

When linked uses of names end alike.  On the left names are looked up by distance; on the right by
distance as well, or by search along the scope chain.  A search finds the frame at a distance when no
nearer frame may bind the name (`Finds`), so both ways come to the same frame. -/

namespace Lox

open World Lox.Action

/-- Two runs to compare: how the right one looks names up, and the distances, sites, early assignments,
declarations and changes of names of both. -/
structure Comparison where
  look : Lookup
  left : Std.HashMap NodeId Nat
  right : Std.HashMap NodeId Nat
  site : NodeId → Nat → NodeId → Nat → Prop
  early : Reference NodeId → Reference NodeId → Prop
  decl : FunDecl NodeId → FunDecl NodeId → Prop
  renames : (String → String) → Prop

/-- May a level bind a name of the second program? -/
def Level.MayBind (l : Level) (n' : String) : Prop := ∃ n, l.role.Declares n ∧ l.role.twin n = n'

/-- No level nearer than a distance may bind a name; without a distance, no level at all. -/
def Levels.Clear (Γ : Levels) (d : Option Nat) (n' : String) : Prop :=
  ∀ j l, Γ[j]? = some l → (∀ k, d = some k → j < k) → ¬ l.MayBind n'

/-- A name is ready at a distance, or is a global. -/
def Levels.Ready (Γ : Levels) (d : Option Nat) (n n' : String) : Prop :=
  match d with
  | some k => ∃ l, Γ[k]? = some l ∧ n ∈ l.ready ∧ n' = l.role.twin n
  | none => n' = n

/-- Only names that a block or a function declares can be assigned to. -/
def Levels.Assignable (Γ : Levels) (d : Option Nat) : Prop :=
  ∀ k l, d = some k → Γ[k]? = some l → ∃ declared twin, l.role = .names declared twin

/-- A place in a method of a class with a superclass: at distance `d` stands the scope that binds `this`,
and around it the one that binds `super`. -/
structure Levels.InMethod (Γ : Levels) (d : Nat) : Prop where
  this : Γ[d]? = some .this
  super : Γ[d + 1]? = some .super

namespace Comparison

variable (C : Comparison)

/-- The right run finds a name at a distance. -/
def Finds (Γ : Levels) (d : Option Nat) (i' : NodeId) (n' : String) : Prop :=
  match C.look with
  | .byDistance => C.right[i']? = d
  | .bySearch => Γ.Clear d n'

/-- The links of two runs. -/
def links : Links where
  read Γ _ r r' := C.site r.id r.name.line r'.id r'.name.line ∧
    C.Finds Γ C.left[r.id]? r'.id r'.name.text ∧ Γ.Ready C.left[r.id]? r.name.text r'.name.text
  write Γ _ r r' := C.site r.id r.name.line r'.id r'.name.line ∧
    (C.Finds Γ C.left[r.id]? r'.id r'.name.text ∧ Γ.Ready C.left[r.id]? r.name.text r'.name.text ∧
        Γ.Assignable C.left[r.id]? ∨
      C.early r r' ∧ C.look = .byDistance ∧ C.left[r.id]? = some 0 ∧ C.right[r'.id]? = some 0 ∧
        ∃ declared twin ready Γ', Γ = ⟨.names declared twin, ready⟩ :: Γ' ∧
          r.name.text ∈ declared ∧ r'.name.text = twin r.name.text)
  super Γ r r' := ∃ d, Γ.InMethod d ∧ C.left[r.id]? = some (d + 1) ∧
    match C.look with
    | .byDistance => C.right[r'.id]? = some (d + 1)
    | .bySearch => r'.name.text = "super" ∧ Γ.Clear (some (d + 1)) "super" ∧ Γ.Clear (some d) "this"
  early := C.early
  site := C.site
  decl := C.decl
  renames := C.renames

end Comparison

/-! ### Searches -/

section search

variable {U : Links} {w : World}

theorem World.Chain.role_globals {Γ : Levels} {env : Env} (hc : w.Chain Γ env) :
    w.roles[globalFrame]? = some .globals := by
  induction hc with
  | globals h => exact h
  | level _ _ _ ih => exact ih

theorem Heap.search_eq (h : Heap) (env : Env) (n : String) :
    h.search env n = (h.findFrame? env n).bind fun f => (h.slots f).lookup n := by
  induction env with
  | nil => rfl
  | cons f env ih =>
      unfold Heap.search Heap.findFrame? at ih ⊢
      rw [List.findSome?_cons, List.find?_cons]
      cases hl : (h.slots f).lookup n with
      | none =>
          have hb : h.binds f n = false := by simp [Heap.binds, Slots.binds, hl]
          rw [hb]
          exact ih
      | some v =>
          have hb : h.binds f n = true := by simp [Heap.binds, Slots.binds, hl]
          rw [hb]
          exact hl.symm

theorem binds_right_of_not_mayBind (hw : w.Good U) {f : FrameId} {l : Level}
    (hr : w.roles[f]? = some l.role) {n' : String} (hn : ¬ l.MayBind n') :
    w.right.binds f n' = false := by
  have h : (w.right.slots f).lookup n' = none :=
    (hw.slots f _ hr).lookup_none fun n hd ht => hn ⟨n, hd, ht⟩
  simp [Heap.binds, Slots.binds, h]

/-- A search goes past the levels that may not bind the name. -/
theorem findFrame?_drop (hw : w.Good U) {n' : String} {Γ : Levels} {env : Env} (hc : w.Chain Γ env)
    {k : Nat} (hk : k ≤ Γ.length) (hcl : ∀ j l, Γ[j]? = some l → j < k → ¬ l.MayBind n') :
    w.right.findFrame? env n' = w.right.findFrame? (env.drop k) n' := by
  induction hc generalizing k with
  | globals h =>
      obtain rfl : k = 0 := Nat.le_zero.mp hk
      rfl
  | @level l Γ f env hr hb hc ih =>
      cases k with
      | zero => rfl
      | succ k =>
          have hf := binds_right_of_not_mayBind hw hr (hcl 0 l rfl (Nat.succ_pos k))
          have ht := ih (Nat.le_of_succ_le_succ hk) fun j l' hj hjk =>
            hcl (j + 1) l' (by simpa using hj) (Nat.succ_lt_succ hjk)
          unfold Heap.findFrame? at ht ⊢
          rw [List.find?_cons, hf, List.drop_succ_cons]
          exact ht

theorem World.Chain.drop_length {Γ : Levels} {env : Env} (hc : w.Chain Γ env) :
    env.drop Γ.length = [globalFrame] := by
  induction hc with
  | globals _ => rfl
  | level _ _ _ ih => simpa using ih

/-- A search for a name that no level may bind is a search among the globals. -/
theorem findFrame?_globals (hw : w.Good U) {n' : String} {Γ : Levels} {env : Env} (hc : w.Chain Γ env)
    (hcl : Γ.Clear none n') : w.right.findFrame? env n' = w.right.findFrame? [globalFrame] n' := by
  rw [findFrame?_drop hw hc (Nat.le_refl _) fun j l hj _ => hcl j l hj (by simp), hc.drop_length]

/-- A search finds the frame of a name that is ready at a level when no nearer level may bind it. -/
theorem findFrame?_level (hw : w.Good U) {Γ : Levels} {env : Env} (hc : w.Chain Γ env) {k : Nat}
    {l : Level} (hl : Γ[k]? = some l) {n : String} (hn : n ∈ l.ready)
    (hcl : Γ.Clear (some k) (l.role.twin n)) :
    ∃ f, env[k]? = some f ∧ w.roles[f]? = some l.role ∧ w.right.binds f (l.role.twin n) = true ∧
      w.right.findFrame? env (l.role.twin n) = some f := by
  obtain ⟨f, hf, hr, hb⟩ := hc.frame hl
  have hbn := hb n hn
  have hrel := hw.lookup hr (hw.declares hr hbn)
  obtain ⟨v, hv⟩ := Option.isSome_iff_exists.mp hbn
  rw [hv] at hrel
  obtain ⟨v', hv', -, -⟩ := hrel.exists_some
  have hbr : w.right.binds f (l.role.twin n) = true := by
    simp [Heap.binds, Slots.binds, hv']
  refine ⟨f, hf, hr, hbr, ?_⟩
  have hk : k ≤ Γ.length := Nat.le_of_lt (List.getElem?_eq_some_iff.mp hl).1
  rw [findFrame?_drop hw hc hk fun j l' hj hjk => hcl j l' hj (by simpa using hjk)]
  obtain ⟨hlt, hget⟩ := List.getElem?_eq_some_iff.mp hf
  rw [List.drop_eq_getElem_cons hlt, hget, Heap.findFrame?, List.find?_cons, hbr]

end search

/-! ### What the actions do -/

section actions

variable (m : Machine) (env : Env) (t : Lexeme) (r : Reference NodeId) (v : Value) (k : Nat) (n : String)

theorem searchIn_apply :
    searchIn env t m =
      match m.heap.search env t.text with
      | some v => .ok v m
      | none => .error (.failed ⟨.undefinedVariable t.text, t.line⟩) m := by
  change (match m.heap.search env t.text with
    | some v => (pure v : Action Value)
    | none => fail (.undefinedVariable t.text) t.line) m = _
  cases m.heap.search env t.text <;> rfl

theorem assignIn_apply :
    assignIn env t v m =
      match m.heap.findFrame? env t.text with
      | some f => modifyHeap (·.define f t.text v) m
      | none => .error (.failed ⟨.undefinedVariable t.text, t.line⟩) m := by
  change (match m.heap.findFrame? env t.text with
    | some f => modifyHeap (·.define f t.text v)
    | none => fail (.undefinedVariable t.text) t.line) m = _
  cases m.heap.findFrame? env t.text <;> rfl

theorem valueAt_apply :
    valueAt k n m =
      match m.heap.getAt m.env k n with
      | .ok v => .ok v m
      | .error breach => .error (.inconsistent breach) m := by
  change sound (m.heap.getAt m.env k n) m = _
  cases m.heap.getAt m.env k n <;> rfl

theorem assignAt_apply :
    assignAt k n v m =
      match m.heap.bindingFrameAt m.env k n with
      | .ok f => modifyHeap (·.define f n v) m
      | .error breach => .error (.inconsistent breach) m := by
  change (sound (m.heap.bindingFrameAt m.env k n) >>= fun f => modifyHeap (·.define f n v)) m = _
  cases m.heap.bindingFrameAt m.env k n <;> rfl

theorem Heap.getAt_of_frame (h : Heap) {env : Env} {k : Nat} {f : FrameId} (hf : env[k]? = some f) :
    h.getAt env k n =
      match (h.slots f).lookup n with
      | some v => .ok v
      | none => .error (.unbound n k) := by
  unfold Heap.getAt Heap.frameAt
  rw [hf]
  rfl

theorem Heap.bindingFrameAt_of_frame (h : Heap) {env : Env} {k : Nat} {f : FrameId}
    (hf : env[k]? = some f) :
    h.bindingFrameAt env k n = if h.binds f n then .ok f else .error (.unbound n k) := by
  unfold Heap.bindingFrameAt Heap.frameAt
  rw [hf]
  rfl

/-- The value of a name at a distance, or among the globals. -/
def Action.valueOf (d : Option Nat) (t : Lexeme) : Action Value :=
  match d with
  | some k => valueAt k t.text
  | none => searchIn [globalFrame] t

/-- Assigns to a name at a distance, or among the globals. -/
def Action.assignTo (d : Option Nat) (t : Lexeme) (v : Value) : Action Unit :=
  match d with
  | some k => assignAt k t.text v
  | none => assignIn [globalFrame] t v

theorem read_byDistance : Action.read .byDistance r m = valueOf m.distances[r.id]? r.name m := by
  change (match m.distances[r.id]? with
    | some d => valueAt d r.name.text
    | none => searchIn [globalFrame] r.name) m = _
  unfold valueOf
  rfl

theorem write_byDistance :
    Action.write .byDistance r v m = assignTo m.distances[r.id]? r.name v m := by
  change (match m.distances[r.id]? with
    | some d => assignAt d r.name.text v
    | none => assignIn [globalFrame] r.name v) m = _
  unfold assignTo
  rfl

end actions

/-! ### The right run -/

section right

variable {C : Comparison} {U : Links} {w : World} {m m' : Machine} {Γ : Levels}

/-- On the right a search comes to the level where the name is ready. -/
theorem searchIn_right (hs : InStep U C.left C.right w m m') (hc : w.Chain Γ m.env) {k : Nat}
    {l : Level} (hl : Γ[k]? = some l) {n : String} (hn : n ∈ l.ready) {t : Lexeme}
    (ht : t.text = l.role.twin n) (hcl : Γ.Clear (some k) t.text) :
    searchIn m'.env t m' = valueAt k t.text m' := by
  rw [ht] at hcl
  obtain ⟨f, hf, -, hb, hfind⟩ := findFrame?_level hs.good hc hl hn hcl
  obtain ⟨v', hv'⟩ := Option.isSome_iff_exists.mp hb
  rw [searchIn_apply, valueAt_apply, Heap.search_eq, hs.env, hs.right, ht, hfind,
    Heap.getAt_of_frame _ _ hf, Option.bind_some, hv']

/-- On the right a read comes to the distance of the left. -/
theorem read_right (hs : InStep U C.left C.right w m m') (hc : w.Chain Γ m.env) {d : Option Nat}
    {n : String} {r' : Reference NodeId} (hf : C.Finds Γ d r'.id r'.name.text)
    (hr : Γ.Ready d n r'.name.text) :
    Action.read C.look r' m' = valueOf d r'.name m' := by
  unfold Comparison.Finds at hf
  cases hl : C.look with
  | byDistance =>
      rw [hl] at hf
      rw [read_byDistance, hs.distances_right, hf]
  | bySearch =>
      rw [hl] at hf
      change searchIn m'.env r'.name m' = _
      unfold valueOf
      cases d with
      | none =>
          dsimp only
          rw [searchIn_apply, searchIn_apply, Heap.search_eq, Heap.search_eq, hs.env, hs.right,
            findFrame?_globals hs.good hc hf]
      | some k =>
          obtain ⟨l, hlv, hn, ht⟩ := hr
          exact searchIn_right hs hc hlv hn ht hf

/-- On the right an assignment comes to the distance of the left. -/
theorem write_right (hs : InStep U C.left C.right w m m') (hc : w.Chain Γ m.env) {d : Option Nat}
    {n : String} {r' : Reference NodeId} (hf : C.Finds Γ d r'.id r'.name.text)
    (hr : Γ.Ready d n r'.name.text) (v' : Value) :
    Action.write C.look r' v' m' = assignTo d r'.name v' m' := by
  unfold Comparison.Finds at hf
  cases hl : C.look with
  | byDistance =>
      rw [hl] at hf
      rw [write_byDistance, hs.distances_right, hf]
  | bySearch =>
      rw [hl] at hf
      change assignIn m'.env r'.name v' m' = _
      unfold assignTo
      cases d with
      | none =>
          dsimp only
          rw [assignIn_apply, assignIn_apply, hs.env, hs.right, findFrame?_globals hs.good hc hf]
      | some k =>
          obtain ⟨l, hlv, hn, ht⟩ := hr
          rw [ht] at hf
          obtain ⟨f, hfr, -, hb, hfind⟩ := findFrame?_level hs.good hc hlv hn hf
          dsimp only
          rw [assignIn_apply, assignAt_apply, hs.env, hs.right, ht, hfind,
            Heap.bindingFrameAt_of_frame _ _ hfr, if_pos hb]

end right

/-! ### Both runs -/

section both

variable {U : Links} {S : Settings} {T T' : Std.HashMap NodeId Nat} {w : World} {env : Env} {b : Bool}
  {Γ : Levels}

theorem Lockstep.getAt (hc : w.Chain Γ env) {k : Nat} {l : Level} (hl : Γ[k]? = some l) {n : String}
    (hn : n ∈ l.ready) :
    Lockstep U S T T' w env b (valueAt k n) (valueAt k (l.role.twin n))
      (fun w₁ v v' => l.role.Holds v ∧ ValueMatch U w₁ v v') := by
  refine .get fun m m' hm he => ?_
  obtain ⟨v, v', hv, hv', hh⟩ := hc.getAt hm.good hl hn
  rw [hm.env, he, hm.left, hm.right, hv, hv']
  exact .pure hh

theorem Heap.search_globals (h : Heap) (n : String) :
    h.search [globalFrame] n = (h.slots globalFrame).lookup n := by
  unfold Heap.search
  rw [List.findSome?_cons]
  cases (h.slots globalFrame).lookup n <;> rfl

theorem Lockstep.valueOf (hc : w.Chain Γ env) {d : Option Nat} {t t' : Lexeme}
    (hr : Γ.Ready d t.text t'.text) {i i' : NodeId} (hs : U.site i t.line i' t'.line) :
    Lockstep U S T T' w env b (valueOf d t) (valueOf d t') (ValueMatch U) := by
  unfold Action.valueOf
  cases d with
  | some k =>
      obtain ⟨l, hl, hn, ht⟩ := hr
      rw [ht]
      exact .imp (.getAt hc hl hn) fun _ _ _ _ h => h.2
  | none =>
      have ht : t'.text = t.text := hr
      unfold Action.searchIn
      rw [ht]
      refine .get fun m m' hm _ => ?_
      have hrel := hm.good.lookup hc.role_globals (n := t.text) trivial
      rw [hm.left, hm.right, Heap.search_globals, Heap.search_globals]
      cases hv : (w.left.slots globalFrame).lookup t.text with
      | none =>
          rw [hv] at hrel
          rw [show (w.right.slots globalFrame).lookup t.text = none from hrel.eq_none]
          exact .fail _ hs
      | some v =>
          rw [hv] at hrel
          obtain ⟨v', hv', -, hm'⟩ := hrel.exists_some
          rw [show (w.right.slots globalFrame).lookup t.text = some v' from hv']
          exact .pure hm'

/-- A value takes the place of another one in a frame of both runs. -/
theorem Lockstep.rebind {f : FrameId} {r : Role} (hr : w.roles[f]? = some r) {n : String}
    (hn : r.Declares n) {v v' : Value} (hh : r.Holds v) (hv : ValueMatch U w v v') :
    Lockstep U S T T' w env b (Action.modifyHeap (Heap.define · f n v))
      (Action.modifyHeap (Heap.define · f (r.twin n) v')) (fun _ _ _ => True) :=
  .modifyHeap (w.le_define f n (r.twin n) v v') rfl rfl
    (fun hg => hg.define hr hn hh (hv.mono (w.le_define f n (r.twin n) v v'))) trivial

/-- In a frame a name and its twin are both bound or both not. -/
theorem World.Good.binds_twin (hw : w.Good U) {f : FrameId} {r : Role} (hr : w.roles[f]? = some r)
    {n : String} (hn : r.Declares n) : w.right.binds f (r.twin n) = w.left.binds f n := by
  have h := hw.lookup hr hn
  unfold Heap.binds Slots.binds
  cases hl : (w.left.slots f).lookup n with
  | none =>
      rw [hl] at h
      rw [h.eq_none]
  | some v =>
      rw [hl] at h
      obtain ⟨v', hv', -⟩ := h.exists_some
      rw [hv']
      rfl

/-- An assignment at a distance to a name that its frame may bind: when the frame does not bind it yet,
neither run finds it. -/
theorem assignAt_agree {m m' : Machine} (hm : InStep U T T' w m m') {k : Nat} {f : FrameId}
    (hf : m.env[k]? = some f) {r : Role} (hr : w.roles[f]? = some r) {n : String} (hn : r.Declares n)
    {v v' : Value} (hh : r.Holds v) (hv : ValueMatch U w v v') :
    w.left.binds f n = true ∧ Agree U S T T' w b m (fun _ _ _ => True) (assignAt k n v m)
        (assignAt k (r.twin n) v' m') ∨
      w.left.binds f n = false ∧ assignAt k n v m = .error (.inconsistent (.unbound n k)) m ∧
        assignAt k (r.twin n) v' m' = .error (.inconsistent (.unbound (r.twin n) k)) m' := by
  have hb := hm.good.binds_twin hr hn
  rw [assignAt_apply, assignAt_apply, hm.env, hm.left, hm.right, Heap.bindingFrameAt_of_frame _ _ hf,
    Heap.bindingFrameAt_of_frame _ _ hf, hb]
  cases hbn : w.left.binds f n with
  | true => exact .inl ⟨rfl, Lockstep.rebind hr hn hh hv m m' hm rfl⟩
  | false => exact .inr ⟨rfl, rfl, rfl⟩

theorem Lockstep.assignTo (hc : w.Chain Γ env) {d : Option Nat} {t t' : Lexeme}
    (hr : Γ.Ready d t.text t'.text) (ha : Γ.Assignable d) {i i' : NodeId}
    (hs : U.site i t.line i' t'.line) {v v' : Value} (hv : ValueMatch U w v v') :
    Lockstep U S T T' w env b (assignTo d t v) (assignTo d t' v') (fun _ _ _ => True) := by
  unfold Action.assignTo
  cases d with
  | some k =>
      obtain ⟨l, hl, hn, ht⟩ := hr
      obtain ⟨declared, twin, hrole⟩ := ha k l rfl hl
      rw [ht]
      intro m m' hm he
      obtain ⟨f, hf, hfr, hb⟩ := hc.frame hl
      have hbn := hb _ hn
      have hh : l.role.Holds v := by
        rw [hrole]
        trivial
      rcases assignAt_agree (S := S) (b := b) hm (he ▸ hf) hfr (hm.good.declares hfr hbn) hh hv with
        h | h
      · exact h.2
      · rw [hbn] at h
        cases h.1
  | none =>
      have ht : t'.text = t.text := hr
      unfold Action.assignIn
      rw [ht]
      refine .get fun m m' hm _ => ?_
      have hb := hm.good.binds_twin hc.role_globals (n := t.text) trivial
      have hbt : w.right.binds globalFrame t.text = w.left.binds globalFrame t.text := hb
      unfold Heap.findFrame?
      rw [hm.left, hm.right, List.find?_cons, List.find?_cons, hbt]
      cases w.left.binds globalFrame t.text with
      | true => exact .rebind (r := .globals) hc.role_globals trivial trivial hv
      | false => exact .fail _ hs

end both

/-! ### The links of two runs are sound -/

section sound

variable {C : Comparison} {S : Settings} {w : World} {m m' : Machine} {Γ : Levels}

/-- An assignment that may find the name not bound yet either finds it in both runs or fails early in both. -/
theorem assignAt_early (hS : S.lookup = .byDistance) (hm : InStep C.links C.left C.right w m m') {f : FrameId}
    (hf : m.env[0]? = some f) {declared : List String} {twin : String → String}
    (hr : w.roles[f]? = some (.names declared twin)) {r r' : Reference NodeId} (hn : r.name.text ∈ declared)
    (ht : r'.name.text = twin r.name.text) (hearly : C.early r r') (hl : C.left[r.id]? = some 0) {b : Bool}
    {v v' : Value} (hv : ValueMatch C.links w v v') :
    Agree C.links S C.left C.right w b m (fun _ _ _ => True) (assignAt 0 r.name.text v m)
      (assignAt 0 r'.name.text v' m') := by
  rcases assignAt_agree (S := S) (b := b) hm hf hr hn trivial hv with h | ⟨-, hleft, hright⟩
  · rw [ht]
    exact h.2
  · have hw : Action.write S.lookup r v m = .error (.inconsistent (.unbound r.name.text 0)) m := by
      rw [hS, write_byDistance, hm.distances_left, hl]
      exact hleft
    have hu : assignAt 0 r'.name.text v' m' = .error (.inconsistent (.unbound r'.name.text 0)) m' := by
      rw [ht]
      exact hright
    rw [hleft, hu]
    exact ⟨w, le_rfl, hm, .refl m, .early hearly ⟨v, m.env, m.depth, hw⟩⟩

/-- The superclass at a distance, and the instance just inside it. -/
def Action.superAt (d : Nat) : Action (Value × Value) :=
  valueAt (d + 1) "super" >>= fun superclass => valueAt d "this" >>= fun object => pure (superclass, object)

theorem readSuper_byDistance {r : Reference NodeId} {t : Lexeme} {d : Nat}
    (h : m.distances[r.id]? = some (d + 1)) : readSuper .byDistance r t m = superAt d m := by
  change (match m.distances[r.id]? with
    | some k => (valueAt k "super" >>= fun u => instanceInside k >>= fun o => pure (u, o))
    | none => throw (.inconsistent (.unresolvedSuper t.line)) : Action (Value × Value)) m = _
  rw [h]
  rfl

/-- On the right a search for `super`, and one for `this`, come to the same scopes. -/
theorem readSuper_bySearch (hs : InStep C.links C.left C.right w m m') (hc : w.Chain Γ m.env) {d : Nat}
    (hi : Γ.InMethod d) {r' : Reference NodeId} (ht : r'.name.text = "super")
    (hsuper : Γ.Clear (some (d + 1)) "super") (hthis : Γ.Clear (some d) "this") (t' : Lexeme) :
    readSuper .bySearch r' t' m' = superAt d m' := by
  have hsuper := searchIn_right hs hc hi.super (n := "super") (by simp [Level.super]) (t := r'.name) ht
    (by rwa [ht])
  have hthis : searchIn m'.env ⟨"this", r'.name.line⟩ m' = valueAt d "this" m' :=
    searchIn_right hs hc hi.this (n := "this") (by simp [Level.this]) rfl hthis
  change (searchIn m'.env r'.name >>= fun u => MonadState.get >>= fun k =>
    searchIn k.env { r'.name with text := "this" } >>= fun o => pure (u, o)) m' = _
  change EStateM.bind _ _ m' = EStateM.bind _ _ m'
  simp only [EStateM.bind]
  rw [hsuper, ht, valueAt_apply]
  cases m'.heap.getAt m'.env (d + 1) "super" with
  | error _ => rfl
  | ok u =>
      change EStateM.bind (searchIn m'.env ⟨"this", r'.name.line⟩) _ m' =
        EStateM.bind (valueAt d "this") _ m'
      simp only [EStateM.bind]
      rw [hthis]

theorem Lockstep.superAt {U : Links} {T T' : Std.HashMap NodeId Nat} {env : Env} {b : Bool}
    (hc : w.Chain Γ env) {d : Nat} (hi : Γ.InMethod d) :
    Lockstep U S T T' w env b (superAt d) (superAt d) fun w₁ p p' =>
      (∃ c, p.1 = .cls c) ∧ (∃ id c, p.2 = .instance_ id c) ∧ ValueMatch U w₁ p.1 p'.1 ∧
        ValueMatch U w₁ p.2 p'.2 := by
  refine .bind (.getAt hc hi.super (by simp [Level.super])) ?_
  rintro w₁ hw₁ u u' ⟨hu, huv⟩
  refine .bind (.getAt (hc.mono hw₁) hi.this (by simp [Level.this])) ?_
  rintro w₂ hw₂ o o' ⟨ho, hov⟩
  exact .pure ⟨hu, ho, huv.mono hw₂, hov⟩

end sound

/-- What the links of two runs allow, the runs do alike. -/
theorem Comparison.links_sound (C : Comparison) {S : Settings} (hS : S.lookup = .byDistance) :
    C.links.Sound S C.look C.left C.right where
  read := by
    rintro Γ p r r' ⟨hs, hf, hr⟩ w env b hc m m' hm he
    rw [hS, read_byDistance, hm.distances_left, read_right hm (he ▸ hc) hf hr]
    exact Lockstep.valueOf hc hr hs m m' hm he
  readSite := by
    rintro Γ p r r' ⟨hs, -, -⟩
    exact hs
  write := by
    rintro Γ p r r' ⟨hs, h⟩ w env b v v' hc hv m m' hm he
    rw [hS, write_byDistance, hm.distances_left]
    rcases h with ⟨hf, hr, ha⟩ | ⟨hearly, hlook, hl, hr, declared, twin, ready, Γ', rfl, hn, ht⟩
    · rw [write_right hm (he ▸ hc) hf hr]
      exact Lockstep.assignTo hc hr ha hs hv m m' hm he
    · obtain ⟨f, hfr, hrole, -⟩ := hc.frame (d := 0) rfl
      rw [hlook, write_byDistance, hm.distances_right, hl, hr]
      exact assignAt_early hS hm (he ▸ hfr) hrole hn ht hearly hl hv
  super := by
    rintro Γ r r' ⟨d, hi, hl, hr⟩ w env b hc t t' m m' hm he
    rw [hS, readSuper_byDistance (hm.distances_left ▸ hl)]
    have hright : readSuper C.look r' t' m' = superAt d m' := by
      cases hlook : C.look with
      | byDistance =>
          rw [hlook] at hr
          exact readSuper_byDistance (hm.distances_right ▸ hr)
      | bySearch =>
          rw [hlook] at hr
          exact readSuper_bySearch hm (he ▸ hc) hi hr.1 hr.2.1 hr.2.2 t'
    rw [hright]
    exact Lockstep.superAt hc hi m m' hm he

end Lox
