import Mathlib.Order.Basic
import Mathlib.Data.List.Forall2
import Lox.Proofs.Matching
import Lox.Proofs.Operators

/-! # Heaps side by side

A world is the heaps of two runs in step, with the role of every frame.  Both runs make the same frames,
instances and numbers in the same order, so a frame of one has the same number as its partner in the
other.  What a frame binds in the first run it binds in the second under the twin name, to a value that
matches (`World.Good`).

Two values match when they are the same but for the code of functions, which has to match at levels that
describe their scope chain.  A world may grow: frames are added, and a frame binds more names
(`World.Le`); values that match once match for good. -/

section related

variable {α β : Type} {R : α → β → Prop}

theorem Option.Rel.eq_none {b : Option β} (h : Option.Rel R Option.none b) : b = Option.none := by
  cases h
  rfl

theorem Option.Rel.exists_some {a : α} {b : Option β} (h : Option.Rel R (Option.some a) b) :
    ∃ b', b = Option.some b' ∧ R a b' := by
  cases h with
  | some h => exact ⟨_, rfl, h⟩

/-- Two lists with the same keys and related values: a key has related values in both, or none. -/
theorem List.lookup_rel {κ : Type} [BEq κ] {l : List (κ × α)} {l' : List (κ × β)}
    (h : List.Forall₂ (fun p p' => p'.1 = p.1 ∧ R p.2 p'.2) l l') (k : κ) :
    Option.Rel R (l.lookup k) (l'.lookup k) := by
  induction h with
  | nil => exact .none
  | @cons p p' ps ps' h _ ih =>
      rw [List.lookup_cons, List.lookup_cons, h.1]
      cases k == p.1 with
      | true => exact .some h.2
      | false => exact ih

/-- The first results of two searches through related lists. -/
theorem List.findSome?_rel {α' β' : Type} {R' : α' → β' → Prop} {f : α → Option α'} {f' : β → Option β'}
    (hf : ∀ a b, R a b → Option.Rel R' (f a) (f' b)) {l : List α} {l' : List β} (h : List.Forall₂ R l l') :
    Option.Rel R' (l.findSome? f) (l'.findSome? f') := by
  induction h with
  | nil => exact .none
  | @cons a b as bs h _ ih =>
      rw [List.findSome?_cons, List.findSome?_cons]
      rcases f a, f' b, hf a b h with ⟨_, _, hr⟩
      cases hr with
      | none => exact ih
      | some hr => exact .some hr

/-- The first of two related lists is related to itself as its members are. -/
theorem List.forall₂_self {R' : α → α → Prop} (hr : ∀ a b, R a b → R' a a) {l : List α} {l' : List β}
    (h : List.Forall₂ R l l') : List.Forall₂ R' l l := by
  induction h with
  | nil => exact .nil
  | cons hab _ ih => exact .cons (hr _ _ hab) ih

end related

namespace Lox

/-- Binding a name to related values keeps slots related. -/
theorem Slots.define_rel {R : Value → Value → Prop} {s s' : Slots}
    (h : List.Forall₂ (fun p p' => p'.1 = p.1 ∧ R p.2 p'.2) s s') (n : String) {v v' : Value} (hv : R v v') :
    List.Forall₂ (fun p p' => p'.1 = p.1 ∧ R p.2 p'.2) (s.define n v) (s'.define n v') := by
  induction h with
  | nil => exact .cons ⟨rfl, hv⟩ .nil
  | @cons p p' ps ps' h hs ih =>
      obtain ⟨m, u⟩ := p
      obtain ⟨m', u'⟩ := p'
      obtain ⟨rfl, hu⟩ := h
      unfold Slots.define
      by_cases hnm : m' = n
      · simpa [hnm] using And.intro hv hs
      · simpa [hnm] using And.intro hu ih

/-! ### Frames of a heap -/

namespace Heap

variable (h : Heap)

theorem slots_newFrame (s : Slots) (f : FrameId) :
    (h.newFrame s).2.slots f = if f = h.frames.size then s else h.slots f := by
  simp only [newFrame, slots, Array.getD_eq_getD_getElem?, Array.getElem?_push]
  split <;> simp

theorem slots_define (f g : FrameId) (n : String) (v : Value) :
    (h.define f n v).slots g =
      if g = f ∧ f < h.frames.size then (h.slots f).define n v else h.slots g := by
  simp only [define, slots, Array.getD_eq_getD_getElem?, Array.getElem?_modify]
  by_cases hg : f = g
  · subst hg
    by_cases hf : f < h.frames.size
    · simp [hf]
    · simp [hf]
  · simp [hg, Ne.symm hg]

theorem slots_define_self {f : FrameId} (hf : f < h.frames.size) (n : String) (v : Value) :
    (h.define f n v).slots f = (h.slots f).define n v := by
  rw [slots_define, if_pos ⟨rfl, hf⟩]

theorem slots_define_of_ne {f g : FrameId} (hg : g ≠ f) (n : String) (v : Value) :
    (h.define f n v).slots g = h.slots g := by
  rw [slots_define, if_neg fun hh => hg hh.1]

theorem binds_define {f g : FrameId} {n m : String} (v : Value) (hb : h.binds g m = true) :
    (h.define f n v).binds g m = true := by
  unfold binds at hb ⊢
  rw [slots_define]
  split
  · rename_i hgf
    by_cases hm : m = n
    · subst hm
      simp [Slots.binds, Slots.lookup_define_self]
    · rw [Slots.binds, Slots.lookup_define_of_ne _ _ hm]
      rwa [hgf.1] at hb
  · exact hb

theorem binds_define_self {f : FrameId} (hf : f < h.frames.size) (n : String) (v : Value) :
    (h.define f n v).binds f n = true := by
  simp [binds, h.slots_define_self hf, Slots.binds, Slots.lookup_define_self]

end Heap

/-! ### Worlds -/

/-- The heaps of two runs, and what their frames are for. -/
structure World where
  roles : List Role
  left : Heap
  right : Heap

namespace World

/-- A later world: more frames, and more names bound in a frame. -/
structure Le (w w' : World) : Prop where
  roles : w.roles <+: w'.roles
  binds : ∀ f n, w.left.binds f n = true → w'.left.binds f n = true

instance : Preorder World where
  le := Le
  le_refl _ := ⟨List.prefix_rfl, fun _ _ h => h⟩
  le_trans _ _ _ h₁ h₂ := ⟨h₁.roles.trans h₂.roles, fun f n h => h₂.binds f n (h₁.binds f n h)⟩

theorem Le.role {w w' : World} (h : w ≤ w') {f : FrameId} {r : Role} (hr : w.roles[f]? = some r) :
    w'.roles[f]? = some r := by
  obtain ⟨more, hm⟩ := h.roles
  rw [← hm, List.getElem?_append_left (List.getElem?_eq_some_iff.mp hr).1, hr]

/-- `w.Chain Γ env`: the frames of a scope chain play the roles that the levels describe, bind what may be
used there, and end with the globals. -/
inductive Chain (w : World) : Levels → Env → Prop
  | globals (h : w.roles[globalFrame]? = some .globals) : Chain w [] [globalFrame]
  | level {l : Level} {Γ : Levels} {f : FrameId} {env : Env} (hr : w.roles[f]? = some l.role)
      (hb : ∀ n ∈ l.ready, w.left.binds f n = true) (h : Chain w Γ env) :
      Chain w (l :: Γ) (f :: env)

theorem Chain.mono {w w' : World} (hw : w ≤ w') {Γ : Levels} {env : Env} (h : w.Chain Γ env) :
    w'.Chain Γ env := by
  induction h with
  | globals h => exact .globals (Le.role hw h)
  | level hr hb _ ih => exact .level (Le.role hw hr) (fun n hn => hw.binds _ _ (hb n hn)) ih

/-- The frame that a level of a chain stands for. -/
theorem Chain.frame {w : World} {Γ : Levels} {env : Env} (h : w.Chain Γ env) {d : Nat} {l : Level}
    (hl : Γ[d]? = some l) :
    ∃ f, env[d]? = some f ∧ w.roles[f]? = some l.role ∧ ∀ n ∈ l.ready, w.left.binds f n = true := by
  induction h generalizing d with
  | globals => simp at hl
  | @level l' Γ f env hr hb _ ih =>
      cases d with
      | zero =>
          obtain rfl : l' = l := by simpa using hl
          exact ⟨f, rfl, hr, hb⟩
      | succ d => exact ih (by simpa using hl)

/-! ### Values -/

section values

variable (U : Links)

/-- Functions that match: the same scope chain, and declarations that match in it.  An initializer has
the frame that binds `this` around it. -/
def ClosureMatch (w : World) (c c' : Closure) : Prop :=
  c'.env = c.env ∧ c'.isInitializer = c.isInitializer ∧ ∃ Γ : Levels, w.Chain Γ c.env ∧
    MatchFun U Γ c.decl c'.decl ∧ (c.isInitializer = true → ∃ Γ', Γ = .this :: Γ')

/-- Methods that match, before they are bound to an instance. -/
def MethodMatch (w : World) (c c' : Closure) : Prop :=
  c'.env = c.env ∧ c'.isInitializer = c.isInitializer ∧ ∃ Γ : Levels, w.Chain Γ c.env ∧
    MatchFun U (.this :: Γ) c.decl c'.decl

/-- Class bodies that match. -/
structure BodyMatch (w : World) (b b' : ClassBody) : Prop where
  id : b'.id = b.id
  name : b'.name = b.name
  methods : List.Forall₂ (fun p p' => p'.1 = p.1 ∧ MethodMatch U w p.2 p'.2) b.methods b'.methods

/-- Classes that match: all their bodies do. -/
structure ClassMatch (w : World) (c c' : Class) : Prop where
  own : BodyMatch U w c.own c'.own
  ancestors : List.Forall₂ (BodyMatch U w) c.ancestors c'.ancestors

/-- Values that match. -/
inductive ValueMatch (w : World) : Value → Value → Prop
  | nil : ValueMatch w .nil .nil
  | bool (b : Bool) : ValueMatch w (.bool b) (.bool b)
  | number (x : Float) : ValueMatch w (.number x) (.number x)
  | string (s : String) : ValueMatch w (.string s) (.string s)
  | clock : ValueMatch w .clock .clock
  | function (id : Nat) {c c' : Closure} (h : ClosureMatch U w c c') :
      ValueMatch w (.function id c) (.function id c')
  | cls {c c' : Class} (h : ClassMatch U w c c') : ValueMatch w (.cls c) (.cls c')
  | instance_ (id : Nat) {c c' : Class} (h : ClassMatch U w c c') :
      ValueMatch w (.instance_ id c) (.instance_ id c')

variable {U} {w w' : World}

theorem ClosureMatch.mono (hw : w ≤ w') {c c' : Closure} (h : ClosureMatch U w c c') :
    ClosureMatch U w' c c' := by
  obtain ⟨he, hi, Γ, hc, hm, ht⟩ := h
  exact ⟨he, hi, Γ, hc.mono hw, hm, ht⟩

theorem MethodMatch.mono (hw : w ≤ w') {c c' : Closure} (h : MethodMatch U w c c') :
    MethodMatch U w' c c' := by
  obtain ⟨he, hi, Γ, hc, hm⟩ := h
  exact ⟨he, hi, Γ, hc.mono hw, hm⟩

theorem BodyMatch.mono (hw : w ≤ w') {b b' : ClassBody} (h : BodyMatch U w b b') :
    BodyMatch U w' b b' :=
  ⟨h.id, h.name, h.methods.imp fun _ _ hp => ⟨hp.1, hp.2.mono hw⟩⟩

theorem ClassMatch.mono (hw : w ≤ w') {c c' : Class} (h : ClassMatch U w c c') :
    ClassMatch U w' c c' :=
  ⟨h.own.mono hw, h.ancestors.imp fun _ _ hb => hb.mono hw⟩

theorem ValueMatch.mono (hw : w ≤ w') {v v' : Value} (h : ValueMatch U w v v') :
    ValueMatch U w' v v' := by
  cases h with
  | nil => exact .nil
  | bool b => exact .bool b
  | number x => exact .number x
  | string s => exact .string s
  | clock => exact .clock
  | function id h => exact .function id (h.mono hw)
  | cls h => exact .cls (h.mono hw)
  | instance_ id h => exact .instance_ id (h.mono hw)

theorem ValueMatch.text {v v' : Value} (h : ValueMatch U w v v') : v'.text = v.text := by
  cases h with
  | nil => rfl
  | bool b => rfl
  | number x => rfl
  | string s => rfl
  | clock => rfl
  | function id h =>
      obtain ⟨-, -, Γ, -, hm, -⟩ := h
      simp only [Value.text, hm.name_text]
  | cls h => simp only [Value.text, h.own.name]
  | instance_ id h => simp only [Value.text, h.own.name]

theorem ValueMatch.truthy {v v' : Value} (h : ValueMatch U w v v') : v'.truthy = v.truthy := by
  cases h <;> rfl

theorem ValueMatch.equals {a a' b b' : Value} (ha : ValueMatch U w a a') (hb : ValueMatch U w b b') :
    a'.equals b' = a.equals b := by
  cases ha with
  | cls ha =>
      cases hb with
      | cls hb => simp only [Value.equals, ha.own.id, hb.own.id]
      | _ => rfl
  | _ => cases hb <;> rfl

theorem ValueMatch.resembles {v v' : Value} (h : ValueMatch U w v v') : v.Resembles v' :=
  ⟨h.truthy, h.text, by cases h <;> rfl⟩

theorem ValueMatch.scalar {v : Value} (h : v.Scalar) : ValueMatch U w v v := by
  cases h with
  | nil => exact .nil
  | bool b => exact .bool b
  | number x => exact .number x
  | string s => exact .string s

/-- The bodies of classes that match do so one by one. -/
theorem ClassMatch.bodies {c c' : Class} (h : ClassMatch U w c c') :
    List.Forall₂ (BodyMatch U w) c.bodies c'.bodies := .cons h.own h.ancestors

theorem BodyMatch.lookup {b b' : ClassBody} (h : BodyMatch U w b b') (n : String) :
    Option.Rel (MethodMatch U w) (b.methods.lookup n) (b'.methods.lookup n) := List.lookup_rel h.methods n

/-- Classes that match find methods that match. -/
theorem ClassMatch.find? {c c' : Class} (h : ClassMatch U w c c') (n : String) :
    Option.Rel (MethodMatch U w) (c.find? n) (c'.find? n) :=
  List.findSome?_rel (fun _ _ hb => hb.lookup n) h.bodies

theorem ClassMatch.arity {c c' : Class} (h : ClassMatch U w c c') : c'.arity = c.arity := by
  have hf := h.find? initializerName
  unfold Class.arity
  cases hc : c.find? initializerName with
  | none =>
      rw [hc] at hf
      rw [hf.eq_none]
  | some f =>
      rw [hc] at hf
      obtain ⟨f', hf', -, -, Γ, -, hm⟩ := hf.exists_some
      rw [hf']
      exact hm.params_length

end values

/-! ### Frames that match -/

section frames

variable (U : Links)

/-- A slot of a frame, and its partner. -/
structure SlotMatch (w : World) (r : Role) (p p' : String × Value) : Prop where
  declared : r.Declares p.1
  holds : r.Holds p.2
  name : p'.1 = r.twin p.1
  value : ValueMatch U w p.2 p'.2

/-- Slots of a frame of a given role, and their partners. -/
abbrev SlotsMatch (w : World) (r : Role) : Slots → Slots → Prop := List.Forall₂ (SlotMatch U w r)

/-- A field of an instance, and its partner. -/
abbrev FieldsMatch (w : World) : Slots → Slots → Prop :=
  List.Forall₂ fun p p' => p'.1 = p.1 ∧ ValueMatch U w p.2 p'.2

/-- The two heaps of a world match. -/
structure Good (w : World) : Prop where
  frames_left : w.left.frames.size = w.roles.length
  frames_right : w.right.frames.size = w.roles.length
  proper : ∀ r ∈ w.roles, r.Proper U
  slots : ∀ f r, w.roles[f]? = some r → SlotsMatch U w r (w.left.slots f) (w.right.slots f)
  fields_size : w.right.fields.size = w.left.fields.size
  fields : ∀ i, FieldsMatch U w (w.left.fields.getD i []) (w.right.fields.getD i [])
  nextId : w.right.nextId = w.left.nextId

variable {U} {w w' : World} {r : Role}

theorem SlotMatch.mono (hw : w ≤ w') {p p' : String × Value} (h : SlotMatch U w r p p') :
    SlotMatch U w' r p p' := ⟨h.declared, h.holds, h.name, h.value.mono hw⟩

theorem SlotsMatch.mono (hw : w ≤ w') {s s' : Slots} (h : SlotsMatch U w r s s') :
    SlotsMatch U w' r s s' := h.imp fun _ _ hp => hp.mono hw

theorem FieldsMatch.mono (hw : w ≤ w') {s s' : Slots} (h : FieldsMatch U w s s') :
    FieldsMatch U w' s s' := h.imp fun _ _ hp => ⟨hp.1, hp.2.mono hw⟩

/-- A name and its twin are both bound, to values that match, or both not. -/
theorem SlotsMatch.lookup {s s' : Slots} (h : SlotsMatch U w r s s') (hp : r.Proper U) {n : String}
    (hn : r.Declares n) :
    Option.Rel (fun v v' => r.Holds v ∧ ValueMatch U w v v') (s.lookup n) (s'.lookup (r.twin n)) := by
  induction h with
  | nil => exact .none
  | @cons p p' ps ps' h _ ih =>
      obtain ⟨m, v⟩ := p
      obtain ⟨m', v'⟩ := p'
      obtain ⟨hd, hv, rfl, hm⟩ := h
      rw [List.lookup_cons, List.lookup_cons]
      by_cases hnm : n = m
      · subst hnm
        simpa using Option.Rel.some ⟨hv, hm⟩
      · have ht : r.twin n ≠ r.twin m := fun he => hnm (hp.injective hn hd he)
        simpa [beq_false_of_ne hnm, beq_false_of_ne ht] using ih

/-- A name that is no twin is not bound. -/
theorem SlotsMatch.lookup_none {s s' : Slots} (h : SlotsMatch U w r s s') {n' : String}
    (hn : ∀ n, r.Declares n → r.twin n ≠ n') : s'.lookup n' = none := by
  induction h with
  | nil => rfl
  | @cons p p' ps ps' h _ ih =>
      have hne : n' ≠ p'.1 := fun he => hn _ h.declared (h.name.symm.trans he.symm)
      rw [List.lookup_cons, beq_false_of_ne hne]
      exact ih

/-- Binding a name and its twin to values that match. -/
theorem SlotsMatch.define {s s' : Slots} (h : SlotsMatch U w r s s') (hp : r.Proper U) {n : String}
    (hn : r.Declares n) {v v' : Value} (hv : r.Holds v) (hm : ValueMatch U w v v') :
    SlotsMatch U w r (s.define n v) (s'.define (r.twin n) v') := by
  induction h with
  | nil => exact .cons ⟨hn, hv, rfl, hm⟩ .nil
  | @cons p p' ps ps' h hs ih =>
      obtain ⟨m, u⟩ := p
      obtain ⟨m', u'⟩ := p'
      obtain ⟨hd, hu, rfl, hmu⟩ := h
      unfold Slots.define
      by_cases hnm : m = n
      · subst hnm
        have hs' : SlotMatch U w r (m, v) (r.twin m, v') := ⟨hn, hv, rfl, hm⟩
        simpa using List.Forall₂.cons hs' hs
      · have ht : r.twin m ≠ r.twin n := fun he => hnm (hp.injective hd hn he)
        have hs' : SlotMatch U w r (m, u) (r.twin m, u') := ⟨hd, hu, rfl, hmu⟩
        simpa [hnm, ht] using List.Forall₂.cons hs' ih

theorem FieldsMatch.lookup {s s' : Slots} (h : FieldsMatch U w s s') (n : String) :
    Option.Rel (ValueMatch U w) (s.lookup n) (s'.lookup n) := List.lookup_rel h n

theorem FieldsMatch.define {s s' : Slots} (h : FieldsMatch U w s s') (n : String) {v v' : Value}
    (hm : ValueMatch U w v v') : FieldsMatch U w (s.define n v) (s'.define n v') := Slots.define_rel h n hm

end frames

/-! ### Changes to both heaps -/

section changes

variable {U : Links} {w : World}

/-- Both runs make a frame. -/
def addFrame (w : World) (r : Role) (s s' : Slots) : World :=
  ⟨w.roles ++ [r], (w.left.newFrame s).2, (w.right.newFrame s').2⟩

/-- Both runs bind a name in a frame. -/
def define (w : World) (f : FrameId) (n n' : String) (v v' : Value) : World :=
  ⟨w.roles, w.left.define f n v, w.right.define f n' v'⟩

/-- Both runs change fields or take numbers, and leave the frames alone. -/
def withFields (w : World) (a a' : Array Slots) (k k' : Nat) : World :=
  ⟨w.roles, { w.left with fields := a, nextId := k }, { w.right with fields := a', nextId := k' }⟩

theorem le_addFrame (w : World) (r : Role) (s s' : Slots) : w ≤ w.addFrame r s s' := by
  refine ⟨List.prefix_append _ _, fun f n h => ?_⟩
  unfold addFrame Heap.binds
  dsimp only
  rw [Heap.slots_newFrame]
  split
  · rename_i hf
    subst hf
    simp [Heap.binds, Heap.slots, Slots.binds] at h
  · exact h

theorem le_define (w : World) (f : FrameId) (n n' : String) (v v' : Value) :
    w ≤ w.define f n n' v v' :=
  ⟨List.prefix_rfl, fun _ _ h => w.left.binds_define v h⟩

theorem le_withFields (w : World) (a a' : Array Slots) (k k' : Nat) : w ≤ w.withFields a a' k k' :=
  ⟨List.prefix_rfl, fun _ _ h => h⟩

theorem role_addFrame (hw : w.Good U) (r : Role) (s s' : Slots) :
    (w.addFrame r s s').roles[w.left.frames.size]? = some r := by
  simp [addFrame, hw.frames_left]

theorem Good.addFrame (hw : w.Good U) {r : Role} (hr : r.Proper U) {s s' : Slots}
    (hs : SlotsMatch U w r s s') : (w.addFrame r s s').Good U where
  frames_left := by simp [World.addFrame, Heap.newFrame, hw.frames_left]
  frames_right := by simp [World.addFrame, Heap.newFrame, hw.frames_right]
  proper q hq := by
    rcases List.mem_append.mp hq with hq | hq
    · exact hw.proper q hq
    · rwa [List.mem_singleton.mp hq]
  slots f q hq := by
    have hle := w.le_addFrame r s s'
    change (w.roles ++ [r])[f]? = some q at hq
    change SlotsMatch U _ q ((w.left.newFrame s).2.slots f) ((w.right.newFrame s').2.slots f)
    rw [Heap.slots_newFrame, Heap.slots_newFrame, hw.frames_left, hw.frames_right]
    by_cases hf : f = w.roles.length
    · subst hf
      obtain rfl : r = q := by simpa using hq
      rw [if_pos rfl, if_pos rfl]
      exact hs.mono hle
    · have hlt : f < w.roles.length := by
        obtain ⟨hlt, -⟩ := List.getElem?_eq_some_iff.mp hq
        rw [List.length_append, List.length_singleton] at hlt
        exact Nat.lt_of_le_of_ne (Nat.le_of_lt_succ hlt) hf
      rw [List.getElem?_append_left hlt] at hq
      rw [if_neg hf, if_neg hf]
      exact (hw.slots f q hq).mono hle
  fields_size := hw.fields_size
  fields i := (hw.fields i).mono (w.le_addFrame r s s')
  nextId := hw.nextId

/-- Binding a name and its twin keeps the heaps matching; the values need to match only afterwards, since
a function may refer to its own name. -/
theorem Good.define (hw : w.Good U) {f : FrameId} {r : Role} (hr : w.roles[f]? = some r) {n : String}
    (hn : r.Declares n) {v v' : Value} (hv : r.Holds v)
    (hm : ValueMatch U (w.define f n (r.twin n) v v') v v') :
    (w.define f n (r.twin n) v v').Good U where
  frames_left := by simp [World.define, Heap.define, hw.frames_left]
  frames_right := by simp [World.define, Heap.define, hw.frames_right]
  proper := hw.proper
  slots g q hq := by
    have hle := w.le_define f n (r.twin n) v v'
    have hlt := (List.getElem?_eq_some_iff.mp hr).1
    by_cases hg : g = f
    · subst hg
      obtain rfl : r = q := by simpa [World.define, hr] using hq
      have hs := ((hw.slots g r hr).mono hle).define (hw.proper r (List.mem_of_getElem? hr)) hn hv hm
      simpa only [World.define, Heap.slots_define_self _ (hw.frames_left ▸ hlt),
        Heap.slots_define_self _ (hw.frames_right ▸ hlt)] using hs
    · simpa only [World.define, Heap.slots_define_of_ne _ hg] using (hw.slots g q hq).mono hle
  fields_size := hw.fields_size
  fields i := (hw.fields i).mono (w.le_define f n (r.twin n) v v')
  nextId := hw.nextId

theorem Good.withFields (hw : w.Good U) {a a' : Array Slots} {k k' : Nat} (hs : a'.size = a.size)
    (ha : ∀ i, FieldsMatch U w (a.getD i []) (a'.getD i [])) (hk : k' = k) :
    (w.withFields a a' k k').Good U where
  frames_left := hw.frames_left
  frames_right := hw.frames_right
  proper := hw.proper
  slots f r hr := (hw.slots f r hr).mono (w.le_withFields a a' k k')
  fields_size := hs
  fields i := (ha i).mono (w.le_withFields a a' k k')
  nextId := hk

/-- Both runs take a number. -/
def takeId (w : World) : World :=
  w.withFields w.left.fields w.right.fields (w.left.nextId + 1) (w.right.nextId + 1)

theorem Good.takeId (hw : w.Good U) : w.takeId.Good U :=
  hw.withFields hw.fields_size hw.fields (by rw [hw.nextId])

/-- Both runs make an instance. -/
def addInstance (w : World) : World :=
  w.withFields (w.left.fields.push []) (w.right.fields.push []) w.left.nextId w.right.nextId

theorem Good.addInstance (hw : w.Good U) : w.addInstance.Good U := by
  refine hw.withFields (by simp [hw.fields_size]) (fun i => ?_) hw.nextId
  have h := hw.fields i
  simp only [Array.getD_eq_getD_getElem?, Array.getElem?_push, hw.fields_size] at h ⊢
  split
  · exact .nil
  · exact h

/-- Both runs set a field of an instance. -/
def setField (w : World) (i : Nat) (n : String) (v v' : Value) : World :=
  w.withFields (w.left.setField i n v).fields (w.right.setField i n v').fields w.left.nextId
    w.right.nextId

theorem Good.setField (hw : w.Good U) (i : Nat) (n : String) {v v' : Value}
    (hm : ValueMatch U w v v') : (w.setField i n v v').Good U := by
  refine hw.withFields (by simp [Heap.setField, hw.fields_size]) (fun j => ?_) hw.nextId
  have h := hw.fields j
  have hs := hw.fields_size
  simp only [Heap.setField, Array.getD_eq_getD_getElem?, Array.getElem?_modify] at h ⊢
  by_cases hj : i = j
  · subst hj
    by_cases hi : i < w.left.fields.size
    · simp only [Array.getElem?_eq_getElem hi, Array.getElem?_eq_getElem (hs ▸ hi),
        Option.getD_some, if_true, Option.map_some] at h ⊢
      exact h.define n hm
    · have hi' : ¬ i < w.right.fields.size := by omega
      simp [hi, hi']
  · simpa [hj] using h

/-- A field and its partner are both set, to values that match, or both not. -/
theorem Good.field? (hw : w.Good U) (i : Nat) (n : String) :
    Option.Rel (ValueMatch U w) (w.left.field? i n) (w.right.field? i n) := (hw.fields i).lookup n

/-- What a name and its twin stand for in a frame. -/
theorem Good.lookup (hw : w.Good U) {f : FrameId} {r : Role} (hr : w.roles[f]? = some r) {n : String}
    (hn : r.Declares n) :
    Option.Rel (fun v v' => r.Holds v ∧ ValueMatch U w v v') ((w.left.slots f).lookup n)
      ((w.right.slots f).lookup (r.twin n)) :=
  (hw.slots f r hr).lookup (hw.proper r (List.mem_of_getElem? hr)) hn

/-- What a frame binds, its role declares. -/
theorem Good.declares (hw : w.Good U) {f : FrameId} {r : Role} (hr : w.roles[f]? = some r) {n : String}
    (hb : w.left.binds f n = true) : r.Declares n := by
  have h := hw.slots f r hr
  unfold Heap.binds Slots.binds at hb
  generalize w.left.slots f = s at h hb
  generalize w.right.slots f = s' at h
  induction h with
  | nil => simp at hb
  | @cons p p' ps ps' h _ ih =>
      rw [List.lookup_cons] at hb
      by_cases hp : n = p.1
      · rw [hp]
        exact h.declared
      · rw [beq_false_of_ne hp] at hb
        exact ih hb

/-! ### Look-up by distance -/

/-- The frame at a level binds what is ready there, in both runs, to values that match. -/
theorem Chain.getAt (hw : w.Good U) {Γ : Levels} {env : Env} (hc : w.Chain Γ env) {d : Nat} {l : Level}
    (hl : Γ[d]? = some l) {n : String} (hn : n ∈ l.ready) :
    ∃ v v', w.left.getAt env d n = .ok v ∧ w.right.getAt env d (l.role.twin n) = .ok v' ∧
      l.role.Holds v ∧ ValueMatch U w v v' := by
  obtain ⟨f, hf, hr, hb⟩ := hc.frame hl
  have hbn := hb n hn
  have hrel := hw.lookup hr (hw.declares hr hbn)
  simp only [Heap.binds, Slots.binds] at hbn
  obtain ⟨v, hv⟩ := Option.isSome_iff_exists.mp hbn
  rw [hv] at hrel
  obtain ⟨v', hv', hh, hm⟩ := hrel.exists_some
  refine ⟨v, v', ?_, ?_, hh, hm⟩
  · simp [Heap.getAt, Heap.frameAt, hf, hv, bind, Except.bind]
  · simp [Heap.getAt, Heap.frameAt, hf, hv', bind, Except.bind]

end changes

end World

end Lox
