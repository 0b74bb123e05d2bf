import Lox.Proofs.Lookups

/-! # Forests of scope frames

Scope frames are a tree: each but that of the globals is nested in another one, and frames side by side share the
frames around them.  The first frame along a chain that binds a name is the one at the least distance where the name
is bound (`Heap.findFrame?_eq_some_iff`), so a search comes to the same slot as an access at that distance.  To give
a slot another value binds no name anew, so later searches come to the same slots as before
(`Heap.search_redefine`).  This is so however the frames came about, by any operations on one frame of globals
(`Forest.grown`), none of which moves a frame elsewhere in the tree (`Forest.lookups_agree`). -/

namespace Lox

open Lox.Action

/-! ### The nearest binding -/

namespace Heap

/-- The frame at a distance along a chain binds a name, and none before it does. -/
structure Nearest (h : Heap) (env : Env) (n : String) (d : Nat) (f : FrameId) : Prop where
  frame : env[d]? = some f
  bound : h.binds f n = true
  least : ∀ j < d, ∀ g, env[j]? = some g → h.binds g n = false

variable {h : Heap} {env : Env} {n : String} {d : Nat} {f : FrameId}

theorem findFrame?_eq_some_iff : h.findFrame? env n = some f ↔ ∃ d, h.Nearest env n d f := by
  unfold findFrame?
  rw [List.find?_eq_some_iff_getElem]
  constructor
  · rintro ⟨hbound, d, hd, hframe, hleast⟩
    refine ⟨d, List.getElem?_eq_some_iff.mpr ⟨hd, hframe⟩, hbound, fun j hj g hg => ?_⟩
    obtain ⟨_, rfl⟩ := List.getElem?_eq_some_iff.mp hg
    simpa using hleast j hj
  · rintro ⟨d, hframe, hbound, hleast⟩
    obtain ⟨hd, hframe⟩ := List.getElem?_eq_some_iff.mp hframe
    refine ⟨hbound, d, hd, hframe, fun j hj => ?_⟩
    simpa using hleast j hj _ (List.getElem?_eq_getElem (Nat.lt_trans hj hd))

theorem exists_nearest (hb : ∃ f ∈ env, h.binds f n = true) : ∃ d f, h.Nearest env n d f := by
  obtain ⟨f, hf, hbound⟩ := hb
  have hfound : (h.findFrame? env n).isSome := List.find?_isSome.mpr ⟨f, hf, hbound⟩
  obtain ⟨g, hg⟩ := Option.isSome_iff_exists.mp hfound
  obtain ⟨d, hnearest⟩ := findFrame?_eq_some_iff.mp hg
  exact ⟨d, g, hnearest⟩

theorem findFrame?_eq_none (hb : ∀ f ∈ env, ¬ h.binds f n = true) : h.findFrame? env n = none :=
  List.find?_eq_none.mpr hb

theorem search_eq_none (hb : ∀ f ∈ env, ¬ h.binds f n = true) : h.search env n = none := by
  rw [search_eq, findFrame?_eq_none hb]
  rfl

namespace Nearest

variable (hn : h.Nearest env n d f)

include hn

theorem findFrame? : h.findFrame? env n = some f := findFrame?_eq_some_iff.mpr ⟨d, hn⟩

theorem bindingFrameAt : h.bindingFrameAt env d n = .ok f := by
  rw [h.bindingFrameAt_of_frame n hn.frame, if_pos hn.bound]

/-- A search finds the value of the slot, and so does an access at the distance. -/
theorem value : ∃ v, h.search env n = some v ∧ h.getAt env d n = .ok v := by
  obtain ⟨v, hv⟩ := Option.isSome_iff_exists.mp hn.bound
  refine ⟨v, ?_, ?_⟩
  · rw [search_eq, hn.findFrame?]
    exact hv
  · rw [h.getAt_of_frame n hn.frame, hv]

end Nearest

/-! ### A slot with another value -/

section redefine

variable (hb : h.binds f n = true) (v : Value)

include hb

theorem lt_of_binds : f < h.frames.size := by
  by_contra hf
  simp [binds, slots, Slots.binds, Array.getElem?_eq_none (Nat.le_of_not_lt hf)] at hb

/-- Only the slot has changed. -/
theorem lookup_redefine (g : FrameId) (n' : String) :
    ((h.define f n v).slots g).lookup n' = if g = f ∧ n' = n then some v else (h.slots g).lookup n' := by
  by_cases hg : g = f
  · subst hg
    rw [h.slots_define_self (lt_of_binds hb)]
    by_cases hname : n' = n
    · subst hname
      rw [if_pos ⟨rfl, rfl⟩, Slots.lookup_define_self]
    · rw [if_neg fun hslot => hname hslot.2, Slots.lookup_define_of_ne _ _ hname]
  · rw [if_neg fun hslot => hg hslot.1, h.slots_define_of_ne hg]

/-- No name is bound that was not. -/
theorem binds_redefine (g : FrameId) (n' : String) : (h.define f n v).binds g n' = h.binds g n' := by
  rw [binds, binds, Slots.binds, Slots.binds, lookup_redefine hb]
  split
  · rename_i hslot
    obtain ⟨rfl, rfl⟩ := hslot
    exact hb.symm
  · rfl

theorem findFrame?_redefine (env : Env) (n' : String) :
    (h.define f n v).findFrame? env n' = h.findFrame? env n' := by
  unfold findFrame?
  exact congrArg (env.find? ·) (funext fun g => binds_redefine hb v g n')

/-- A search gives the new value when it comes to the slot, and else what it gave. -/
theorem search_redefine (env : Env) (n' : String) :
    (h.define f n v).search env n' =
      if h.findFrame? env n' = some f ∧ n' = n then some v else h.search env n' := by
  rw [search_eq, search_eq, findFrame?_redefine hb]
  cases h.findFrame? env n' with
  | none => rfl
  | some g =>
    simp only [Option.bind_some, lookup_redefine hb, Option.some_inj]

end redefine

end Heap

/-! ### Forests -/

/-- Scope frames: the machine that holds what they bind, and the chain of each, from the frame itself outward. -/
structure Forest where
  machine : Machine
  chains : List Env

/-- What is done at a scope frame. -/
inductive FrameOp where
  /-- A frame is made that is nested in it. -/
  | child
  | define (name : String) (value : Value)
  | assign (name : Lexeme) (value : Value)
  | assignAt (distance : Nat) (name : String) (value : Value)

namespace Forest

/-- One frame, that of the globals, which binds nothing yet. -/
def globals (m : Machine) : Forest := ⟨{ m with heap := { m.heap with frames := #[[]] } }, [[globalFrame]]⟩

variable {α : Type} (F : Forest)

/-- What an action comes to, and the forest that it leaves. -/
def after (action : Action α) : Except Exit α × Forest :=
  match action F.machine with
  | .ok a m => (.ok a, { F with machine := m })
  | .error e m => (.error e, { F with machine := m })

/-- The value of a name, searched for along a chain. -/
def get (env : Env) (name : Lexeme) : Except Exit Value × Forest := F.after (searchIn env name)

/-- The value of a name in the frame at a distance. -/
def getAt (env : Env) (distance : Nat) (name : String) : Except Exit Value × Forest :=
  F.after (within env (valueAt distance name))

/-- What an operation comes to at the frame with a chain, and the forest that it leaves. -/
def perform (env : Env) : FrameOp → Except Exit Unit × Forest
  | .child =>
    match F.after (nest [] env) with
    | (.ok env', F') => (.ok (), { F' with chains := F.chains ++ [env'] })
    | (.error e, F') => (.error e, F')
  | .define name value => F.after (within env (define name value))
  | .assign name value => F.after (assignIn env name value)
  | .assignAt distance name value => F.after (within env (assignAt distance name value))

/-- One operation at a frame; nothing happens when there is no such frame. -/
def step (F : Forest) (op : FrameId × FrameOp) : Forest :=
  match F.chains[op.1]? with
  | some env => (F.perform env op.2).2
  | none => F

/-- The forest that operations, one after another, make of one frame of globals. -/
def grown (m : Machine) (ops : List (FrameId × FrameOp)) : Forest := ops.foldl step (globals m)

/-- Does a frame bind a name? -/
def Binds (f : FrameId) (n : String) : Prop := F.machine.heap.binds f n = true

/-- The value of a name in a frame that binds it. -/
def slot (f : FrameId) (n : String) : Option Value := (F.machine.heap.slots f).lookup n

/-- The frame at a distance along a chain binds a name, and none before it does. -/
def Nearest (env : Env) (n : String) (d : Nat) (f : FrameId) : Prop := F.machine.heap.Nearest env n d f

/-- The frames form a tree: each has a chain, which goes on from the frame to the chain of an earlier one, its
parent; only that of the globals ends there. -/
structure Rooted : Prop where
  size : F.chains.length = F.machine.heap.frames.size
  root : F.chains[globalFrame]? = some [globalFrame]
  nested : ∀ f env, F.chains[f + 1]? = some env →
    ∃ parent around, parent ≤ f ∧ F.chains[parent]? = some around ∧ env = (f + 1) :: around

/-- One slot has another value and nothing else has changed; so a search gives that value when it comes to the slot,
and else what it gave before. -/
structure Replaced (F' : Forest) (f : FrameId) (n : String) (v : Value) : Prop where
  chains : F'.chains = F.chains
  machine : F'.machine = { F.machine with heap := { F.machine.heap with frames := F'.machine.heap.frames } }
  slot : F'.slot f n = some v
  others : ∀ g n', ¬ (g = f ∧ n' = n) → F'.slot g n' = F.slot g n'
  found : ∀ env d t, F.Nearest env n d f → t.text = n → F'.get env t = (.ok v, F')
  unchanged : ∀ env t, (∀ d, F.Nearest env n d f → t.text ≠ n) → (F'.get env t).1 = (F.get env t).1

/-! ### What the operations do -/

variable {F} {env : Env} {f : FrameId} {n : String} {d : Nat}

/-- The fault of a name that is bound nowhere. -/
def undefined (t : Lexeme) : RuntimeError := ⟨.undefinedVariable t.text, t.line⟩

theorem get_of_some {t : Lexeme} {v : Value} (h : F.machine.heap.search env t.text = some v) :
    F.get env t = (.ok v, F) := by
  unfold get after
  rw [searchIn_apply, h]

theorem get_of_none {t : Lexeme} (h : F.machine.heap.search env t.text = none) :
    F.get env t = (.error (.failed (undefined t)), F) := by
  unfold get after
  rw [searchIn_apply, h]
  rfl

theorem get_congr {F' : Forest} {t : Lexeme}
    (h : F'.machine.heap.search env t.text = F.machine.heap.search env t.text) :
    (F'.get env t).1 = (F.get env t).1 := by
  cases hs : F.machine.heap.search env t.text with
  | none => rw [get_of_none hs, get_of_none (h.trans hs)]
  | some v => rw [get_of_some hs, get_of_some (h.trans hs)]

theorem getAt_of_eq {v : Value} (h : F.machine.heap.getAt env d n = .ok v) : F.getAt env d n = (.ok v, F) := by
  have hvalue : valueAt d n { F.machine with env := env } = .ok v { F.machine with env := env } := by
    rw [valueAt_apply, h]
  unfold getAt after within
  rw [hvalue]

/-- The forest with another value bound to a name in a frame. -/
def defined (F : Forest) (f : FrameId) (n : String) (v : Value) : Forest :=
  { F with machine := { F.machine with heap := F.machine.heap.define f n v } }

theorem assign_of_some {t : Lexeme} (h : F.machine.heap.findFrame? env t.text = some f) (v : Value) :
    F.perform env (.assign t v) = (.ok (), F.defined f t.text v) := by
  unfold perform after
  dsimp only
  rw [assignIn_apply, h]
  rfl

theorem assign_of_none {t : Lexeme} (h : F.machine.heap.findFrame? env t.text = none) (v : Value) :
    F.perform env (.assign t v) = (.error (.failed (undefined t)), F) := by
  unfold perform after
  dsimp only
  rw [assignIn_apply, h]
  rfl

theorem assignAt_eq (v : Value) :
    F.perform env (.assignAt d n v) =
      match F.machine.heap.bindingFrameAt env d n with
      | .ok f => (.ok (), F.defined f n v)
      | .error breach => (.error (.inconsistent breach), F) := by
  unfold perform after within
  dsimp only
  rw [assignAt_apply]
  dsimp only
  cases F.machine.heap.bindingFrameAt env d n <;> rfl

theorem define_eq (v : Value) :
    F.perform env (.define n v) = (.ok (), match env with
      | f :: _ => F.defined f n v
      | [] => F) := by
  cases env <;> rfl

theorem child_eq :
    F.perform env .child =
      (.ok (), ⟨{ F.machine with heap := (F.machine.heap.newFrame []).2 },
        F.chains ++ [F.machine.heap.frames.size :: env]⟩) := rfl

theorem Nearest.replaced (hn : F.Nearest env n d f) (v : Value) : F.Replaced (F.defined f n v) f n v where
  chains := rfl
  machine := rfl
  slot := (Heap.lookup_redefine hn.bound v f n).trans (if_pos ⟨rfl, rfl⟩)
  others g n' hslot := (Heap.lookup_redefine hn.bound v g n').trans (if_neg hslot)
  found env' d' t hn' ht := by
    refine get_of_some ?_
    change (F.machine.heap.define f n v).search env' t.text = some v
    rw [Heap.search_redefine hn.bound, ht, if_pos ⟨hn'.findFrame?, rfl⟩]
  unchanged env' t hother := by
    refine get_congr ?_
    change (F.machine.heap.define f n v).search env' t.text = _
    rw [Heap.search_redefine hn.bound]
    refine if_neg fun hslot => ?_
    obtain ⟨d', hn'⟩ := Heap.findFrame?_eq_some_iff.mp hslot.1
    exact hother d' (hslot.2 ▸ hn') hslot.2

/-! ### Every forest -/

theorem rooted_globals (m : Machine) : (globals m).Rooted where
  size := rfl
  root := rfl
  nested f env h := by
    rw [globals, List.getElem?_cons_succ] at h
    cases h

theorem Rooted.defined (h : F.Rooted) (f : FrameId) (n : String) (v : Value) : (F.defined f n v).Rooted where
  size := h.size.trans Array.size_modify.symm
  root := h.root
  nested := h.nested

/-- A frame that is made at another one has a chain that goes on to the chain of that one. -/
theorem Rooted.child (h : F.Rooted) {parent : Nat} (hp : F.chains[parent]? = some env) :
    (F.perform env .child).2.Rooted := by
  have hlt : parent < F.chains.length := (List.getElem?_eq_some_iff.mp hp).1
  have hold {f : Nat} (hf : f < F.chains.length) (env' : Env) :
      (F.chains ++ [env'])[f]? = F.chains[f]? := List.getElem?_append_left hf
  rw [child_eq]
  refine ⟨?size, ?root, fun f env' hf => ?nested⟩
  case size =>
    rw [List.length_append, h.size]
    exact (Array.size_push _).symm
  case root =>
    exact (hold (Nat.zero_lt_of_lt hlt) _).trans h.root
  case nested =>
    dsimp only at hf ⊢
    rcases Nat.lt_trichotomy (f + 1) F.chains.length with hf' | hf' | hf'
    · rw [hold hf'] at hf
      obtain ⟨parent', around, hle, hparent, henv⟩ := h.nested f env' hf
      exact ⟨parent', around, hle, by rw [hold (by omega), hparent], henv⟩
    · rw [hf', List.getElem?_concat_length] at hf
      cases hf
      exact ⟨parent, env, by omega, by rw [hold hlt, hp], by rw [hf', h.size]⟩
    · rw [List.getElem?_eq_none (by rw [List.length_append, List.length_singleton]; omega)] at hf
      cases hf

/-- What one operation keeps: the frames form a tree. -/
theorem Rooted.perform (h : F.Rooted) (hf : F.chains[f]? = some env) (op : FrameOp) :
    (F.perform env op).2.Rooted := by
  cases op with
  | child => exact h.child hf
  | define n v =>
    rw [define_eq]
    cases env with
    | nil => exact h
    | cons g env => exact h.defined g n v
  | assign t v =>
    cases hg : F.machine.heap.findFrame? env t.text with
    | none =>
      rw [assign_of_none hg]
      exact h
    | some g =>
      rw [assign_of_some hg]
      exact h.defined g t.text v
  | assignAt d n v =>
    rw [assignAt_eq]
    cases F.machine.heap.bindingFrameAt env d n with
    | error breach => exact h
    | ok g => exact h.defined g n v

theorem Rooted.step (h : F.Rooted) (op : FrameId × FrameOp) : (F.step op).Rooted := by
  unfold Forest.step
  cases hf : F.chains[op.1]? with
  | none => exact h
  | some env => exact h.perform hf op.2

/-- What a history keeps: the frames form a tree. -/
theorem rooted_grown (m : Machine) (ops : List (FrameId × FrameOp)) : (grown m ops).Rooted := by
  have hfold (F : Forest) (h : F.Rooted) : (ops.foldl Forest.step F).Rooted := by
    induction ops generalizing F with
    | nil => exact h
    | cons op ops ih => exact ih _ (h.step op)
  exact hfold _ (rooted_globals m)

/-- The chains of the frames there are stay the same. -/
theorem chains_perform (F : Forest) (env : Env) (op : FrameOp) : F.chains <+: (F.perform env op).2.chains := by
  cases op with
  | child => exact List.prefix_append _ _
  | define n v =>
    rw [define_eq]
    cases env <;> exact List.prefix_rfl
  | assign t v =>
    cases hg : F.machine.heap.findFrame? env t.text with
    | none =>
      exact (assign_of_none hg v).symm ▸ List.prefix_rfl
    | some g =>
      exact (assign_of_some hg v).symm ▸ List.prefix_rfl
  | assignAt d n v =>
    rw [assignAt_eq]
    cases F.machine.heap.bindingFrameAt env d n <;> exact List.prefix_rfl

/-- An assignment binds no name that was not bound. -/
theorem binds_assign (F : Forest) (env : Env) (t : Lexeme) (v : Value) (f : FrameId) (n : String) :
    (F.perform env (.assign t v)).2.Binds f n ↔ F.Binds f n := by
  cases hg : F.machine.heap.findFrame? env t.text with
  | none => rw [assign_of_none hg]
  | some g =>
    obtain ⟨d, hn⟩ := Heap.findFrame?_eq_some_iff.mp hg
    rw [assign_of_some hg]
    exact (Heap.binds_redefine hn.bound v f n).congr_left

/-- Whatever is done to the frames that grow from one frame of globals, they form a tree.  A name is found along a
chain when a frame of the chain binds it, and then as it is found at the least distance where it is bound; an
assignment to the name is one at that distance, which replaces the value of that slot and nothing else.  A name that
no frame of the chain binds is not found, and nothing is assigned to it.  No assignment binds a name, and no
operation puts a frame elsewhere in the tree. -/
theorem lookups_agree (m : Machine) (ops : List (FrameId × FrameOp)) :
    let F := grown m ops
    F.Rooted ∧
    (∀ env ∈ F.chains, ∀ (t : Lexeme) (v : Value),
      ((∃ value, F.get env t = (.ok value, F)) ↔ ∃ f ∈ env, F.Binds f t.text) ∧
      ((∃ f ∈ env, F.Binds f t.text) →
        ∃ d f, F.Nearest env t.text d f ∧ F.get env t = F.getAt env d t.text ∧
          F.perform env (.assign t v) = F.perform env (.assignAt d t.text v) ∧
          ∃ F', F.perform env (.assign t v) = (.ok (), F') ∧ F.Replaced F' f t.text v) ∧
      ((∀ f ∈ env, ¬ F.Binds f t.text) →
        ∃ e : RuntimeError, e.fault.message = "Undefined variable '" ++ t.text ++ "'." ∧ e.line = t.line ∧
          F.get env t = (.error (.failed e), F) ∧ F.perform env (.assign t v) = (.error (.failed e), F))) ∧
    (∀ env t v f n, (F.perform env (.assign t v)).2.Binds f n ↔ F.Binds f n) ∧
    ∀ env op, F.chains <+: (F.perform env op).2.chains := by
  intro F
  refine ⟨rooted_grown m ops, fun env _ t v => ?_, F.binds_assign, F.chains_perform⟩
  have unbound (h : ∀ f ∈ env, ¬ F.Binds f t.text) :
      F.get env t = (.error (.failed (undefined t)), F) := get_of_none (Heap.search_eq_none h)
  refine ⟨⟨fun ⟨value, hget⟩ => ?_, fun hb => ?_⟩, fun hb => ?_, fun h => ?_⟩
  · by_contra hnone
    rw [unbound fun f hf hb => hnone ⟨f, hf, hb⟩] at hget
    cases hget
  · obtain ⟨d, f, hn⟩ := Heap.exists_nearest hb
    obtain ⟨value, hsearch, -⟩ := hn.value
    exact ⟨value, get_of_some hsearch⟩
  · obtain ⟨d, f, hn⟩ := Heap.exists_nearest hb
    obtain ⟨value, hsearch, hat⟩ := hn.value
    have hassign := assign_of_some hn.findFrame? v
    refine ⟨d, f, hn, ?_, ?_, _, hassign, Nearest.replaced hn v⟩
    · rw [get_of_some hsearch, getAt_of_eq hat]
    · rw [hassign, assignAt_eq, hn.bindingFrameAt]
  · exact ⟨undefined t, rfl, rfl, unbound h, assign_of_none (Heap.findFrame?_eq_none h) v⟩

/-- Frames side by side see what is assigned to a name around them. -/
example (m : Machine) :
    let F := grown m [(globalFrame, .define "a" .nil), (globalFrame, .child), (globalFrame, .child),
      (1, .assign ⟨"a", 1⟩ (.bool true))]
    F.chains = [[0], [1, 0], [2, 0]] ∧ F.get [2, 0] ⟨"a", 2⟩ = (.ok (.bool true), F) := ⟨rfl, rfl⟩

/-- The machine before its first program is a forest of one frame that binds the clock. -/
example (sink : Sink) :
    (grown (Machine.start sink) [(globalFrame, .define "clock" .clock)]).machine = Machine.start sink := rfl

end Forest

end Lox
