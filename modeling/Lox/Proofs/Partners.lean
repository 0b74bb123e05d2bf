import Lox.Proofs.Layers
import Lox.Proofs.Operators

/-! # Heaps with frames more

Two heaps of which the second has frames that the first has not.  Every frame of the first has a partner in the
second (`Partners`); the scope chains of two places are `Aligned` when they have partners at the same places, but
for the extra frames that the layers tell.  Values that stand beside each other are the same but for the scope
chains of functions, which are aligned, and for braces in their code (`ValueBeside`).

What the values are without braces and scope chains (`Value.bare`) is then the same. -/

namespace Lox

/-! ### Partners -/

/-- For every frame of the first heap its partner in the second. -/
abbrev Partners := List FrameId

/-- Scope chains with partners at the same places, but for the extra frames of the second. -/
inductive Aligned (w : Partners) : Layers → Env → Env → Prop
  | shared_all {env env' : Env} (h : List.Forall₂ (fun f f' => w[f]? = some f') env env') : Aligned w [] env env'
  | shared {Γ : Layers} {f f' : FrameId} {env env' : Env} (hf : w[f]? = some f') (h : Aligned w Γ env env') :
      Aligned w (.shared :: Γ) (f :: env) (f' :: env')
  | extra {Γ : Layers} (f' : FrameId) {env env' : Env} (h : Aligned w Γ env env') :
      Aligned w (.extra :: Γ) env (f' :: env')

section aligned

variable {w w₁ : Partners} {Γ : Layers} {env env' : Env}

/-- A frame keeps its partner. -/
theorem Partners.mono (hw : w <+: w₁) {f f' : FrameId} (h : w[f]? = some f') : w₁[f]? = some f' := by
  obtain ⟨more, rfl⟩ := hw
  rw [List.getElem?_append_left (List.getElem?_eq_some_iff.mp h).1, h]

theorem Aligned.mono (hw : w <+: w₁) (h : Aligned w Γ env env') : Aligned w₁ Γ env env' := by
  induction h with
  | shared_all h => exact .shared_all (h.imp fun _ _ => Partners.mono hw)
  | shared hf _ ih => exact .shared (Partners.mono hw hf) ih
  | extra f' _ ih => exact .extra f' ih

/-- The frame at a distance, and its partner at the distance in the second chain. -/
theorem Aligned.frame (h : Aligned w Γ env env') (d : Nat) :
    Option.Rel (fun f f' => w[f]? = some f') env[d]? env'[Γ.outward d]? := by
  induction h generalizing d with
  | shared_all h =>
      rw [Layers.outward]
      induction h generalizing d with
      | nil => exact .none
      | cons hf _ ih =>
          cases d with
          | zero => exact .some hf
          | succ d => exact ih d
  | shared hf _ ih =>
      cases d with
      | zero => exact .some hf
      | succ d => exact ih d
  | extra f' _ ih => exact ih d

/-- Where names may be declared, the innermost frames are partners. -/
theorem Aligned.innermost (h : Aligned w Γ env env') (ho : Γ.Open) :
    Option.Rel (fun f f' => w[f]? = some f') env[0]? env'[0]? := by
  have hf := h.frame 0
  rwa [ho.outward_zero] at hf

end aligned

/-! ### Values -/

section values

variable (U : Tables) (w : Partners)

/-- Functions that are the same but for braces, made in aligned scope chains. -/
def ClosureBeside (c c' : Closure) : Prop :=
  c'.isInitializer = c.isInitializer ∧ ∃ Γ, Aligned w Γ c.env c'.env ∧ BracedFun U Γ c.decl c'.decl ∧
    (c.isInitializer = true → Γ.Open)

/-- Methods that are the same but for braces, before they are bound to an instance. -/
def MethodBeside (c c' : Closure) : Prop :=
  c'.isInitializer = c.isInitializer ∧
    ∃ Γ, Aligned w Γ c.env c'.env ∧ BracedFun U (.shared :: Γ) c.decl c'.decl

/-- Class bodies that are the same but for braces in their methods. -/
structure BodyBeside (b b' : ClassBody) : Prop where
  id : b'.id = b.id
  name : b'.name = b.name
  methods : List.Forall₂ (fun p p' => p'.1 = p.1 ∧ MethodBeside U w p.2 p'.2) b.methods b'.methods

/-- Classes that are the same but for braces in their methods. -/
structure ClassBeside (c c' : Class) : Prop where
  own : BodyBeside U w c.own c'.own
  ancestors : List.Forall₂ (BodyBeside U w) c.ancestors c'.ancestors

/-- Values that are the same but for braces in code and for the frames that code refers to. -/
inductive ValueBeside : Value → Value → Prop
  | nil : ValueBeside .nil .nil
  | bool (b : Bool) : ValueBeside (.bool b) (.bool b)
  | number (x : Float) : ValueBeside (.number x) (.number x)
  | string (s : String) : ValueBeside (.string s) (.string s)
  | clock : ValueBeside .clock .clock
  | function (id : Nat) {c c' : Closure} (h : ClosureBeside U w c c') :
      ValueBeside (.function id c) (.function id c')
  | cls {c c' : Class} (h : ClassBeside U w c c') : ValueBeside (.cls c) (.cls c')
  | instance_ (id : Nat) {c c' : Class} (h : ClassBeside U w c c') :
      ValueBeside (.instance_ id c) (.instance_ id c')

/-- The same names in the same order, with values beside each other. -/
abbrev SlotsBeside : Slots → Slots → Prop := List.Forall₂ fun p p' => p'.1 = p.1 ∧ ValueBeside U w p.2 p'.2

variable {U w}

section mono

variable {V : Tables} (hV : U.Le V) {w₁ : Partners} (hw : w <+: w₁)

include hV hw

theorem ClosureBeside.mono {c c' : Closure} (h : ClosureBeside U w c c') : ClosureBeside V w₁ c c' := by
  obtain ⟨hi, Γ, hc, hd, ho⟩ := h
  exact ⟨hi, Γ, hc.mono hw, hd.mono hV, ho⟩

theorem MethodBeside.mono {c c' : Closure} (h : MethodBeside U w c c') : MethodBeside V w₁ c c' := by
  obtain ⟨hi, Γ, hc, hd⟩ := h
  exact ⟨hi, Γ, hc.mono hw, hd.mono hV⟩

theorem BodyBeside.mono {b b' : ClassBody} (h : BodyBeside U w b b') : BodyBeside V w₁ b b' :=
  ⟨h.id, h.name, h.methods.imp fun _ _ hp => ⟨hp.1, hp.2.mono hV hw⟩⟩

theorem ClassBeside.mono {c c' : Class} (h : ClassBeside U w c c') : ClassBeside V w₁ c c' :=
  ⟨h.own.mono hV hw, h.ancestors.imp fun _ _ hb => hb.mono hV hw⟩

theorem ValueBeside.mono {v v' : Value} (h : ValueBeside U w v v') : ValueBeside V w₁ v v' := by
  cases h with
  | nil => exact .nil
  | bool b => exact .bool b
  | number x => exact .number x
  | string s => exact .string s
  | clock => exact .clock
  | function id h => exact .function id (h.mono hV hw)
  | cls h => exact .cls (h.mono hV hw)
  | instance_ id h => exact .instance_ id (h.mono hV hw)

theorem SlotsBeside.mono {s s' : Slots} (h : SlotsBeside U w s s') : SlotsBeside V w₁ s s' :=
  h.imp fun _ _ hp => ⟨hp.1, hp.2.mono hV hw⟩

end mono

theorem ValueBeside.text {v v' : Value} (h : ValueBeside U w v v') : v'.text = v.text := by
  cases h with
  | function id h =>
      obtain ⟨-, Γ, -, hd, -⟩ := h
      simp only [Value.text, hd.name_eq]
  | cls h => simp only [Value.text, h.own.name]
  | instance_ id h => simp only [Value.text, h.own.name]
  | _ => rfl

theorem ValueBeside.truthy {v v' : Value} (h : ValueBeside U w v v') : v'.truthy = v.truthy := by
  cases h <;> rfl

theorem ValueBeside.equals {a a' b b' : Value} (ha : ValueBeside U w a a') (hb : ValueBeside U w b b') :
    a'.equals b' = a.equals b := by
  cases ha with
  | cls ha =>
      cases hb with
      | cls hb => simp only [Value.equals, ha.own.id, hb.own.id]
      | _ => rfl
  | _ => cases hb <;> rfl

theorem ValueBeside.resembles {v v' : Value} (h : ValueBeside U w v v') : v.Resembles v' :=
  ⟨h.truthy, h.text, by cases h <;> rfl⟩

theorem ValueBeside.scalar {v : Value} (h : v.Scalar) : ValueBeside U w v v := by
  cases h with
  | nil => exact .nil
  | bool b => exact .bool b
  | number x => exact .number x
  | string s => exact .string s

theorem ClassBeside.bodies {c c' : Class} (h : ClassBeside U w c c') :
    List.Forall₂ (BodyBeside U w) c.bodies c'.bodies := .cons h.own h.ancestors

/-- Classes beside each other find methods that are beside each other. -/
theorem ClassBeside.find? {c c' : Class} (h : ClassBeside U w c c') (n : String) :
    Option.Rel (MethodBeside U w) (c.find? n) (c'.find? n) :=
  List.findSome?_rel (fun _ _ hb => List.lookup_rel hb.methods n) h.bodies

theorem BracedFun.arity_eq {Γ : Layers} {c c' : Closure} (h : BracedFun U Γ c.decl c'.decl) :
    c'.arity = c.arity := by
  rw [Closure.arity, h.params_eq, Closure.arity]

theorem ClassBeside.arity {c c' : Class} (h : ClassBeside U w c c') : c'.arity = c.arity := by
  have hf := h.find? initializerName
  unfold Class.arity
  cases hc : c.find? initializerName with
  | none =>
      rw [hc] at hf
      rw [hf.eq_none]
  | some f =>
      rw [hc] at hf
      obtain ⟨f', hf', -, Γ, -, hd⟩ := hf.exists_some
      rw [hf']
      exact hd.arity_eq

end values

/-! ### Heaps -/

/-- Heaps beside each other: frames and their partners bind the same names, instances have the same fields, and the
next number is the same. -/
structure HeapBeside (U : Tables) (w : Partners) (h h' : Heap) : Prop where
  size : h.frames.size = w.length
  bound : ∀ f ∈ w, f < h'.frames.size
  nodup : w.Nodup
  globals : w[globalFrame]? = some globalFrame
  slots : ∀ f f', w[f]? = some f' → SlotsBeside U w (h.slots f) (h'.slots f')
  fields_size : h'.fields.size = h.fields.size
  fields : ∀ i, SlotsBeside U w (h.fields.getD i []) (h'.fields.getD i [])
  nextId : h'.nextId = h.nextId

namespace HeapBeside

variable {U : Tables} {w : Partners} {h h' : Heap}

/-- What is known of distances does not matter to heaps, as long as it is kept. -/
theorem mono {V : Tables} (hV : U.Le V) (hh : HeapBeside U w h h') : HeapBeside V w h h' where
  size := hh.size
  bound := hh.bound
  nodup := hh.nodup
  globals := hh.globals
  slots f f' hf := (hh.slots f f' hf).mono hV List.prefix_rfl
  fields_size := hh.fields_size
  fields i := (hh.fields i).mono hV List.prefix_rfl
  nextId := hh.nextId

/-- Both heaps get a frame. -/
theorem newFrame (hh : HeapBeside U w h h') {s s' : Slots} (hs : SlotsBeside U w s s') :
    HeapBeside U (w ++ [h'.frames.size]) (h.newFrame s).2 (h'.newFrame s').2 where
  size := by simp [Heap.newFrame, hh.size]
  bound f hf := by
    rw [show (h'.newFrame s').2.frames.size = h'.frames.size + 1 by simp [Heap.newFrame]]
    rcases List.mem_append.mp hf with hf | hf
    · exact Nat.lt_succ_of_lt (hh.bound f hf)
    · rw [List.mem_singleton.mp hf]
      exact Nat.lt_succ_self _
  nodup := by
    refine List.nodup_append.mpr ⟨hh.nodup, List.pairwise_singleton _ _, fun a ha b hb he => ?_⟩
    rw [List.mem_singleton.mp hb] at he
    exact absurd (hh.bound a ha) (by rw [he]; exact Nat.lt_irrefl _)
  globals := Partners.mono (List.prefix_append _ _) hh.globals
  slots f f' hf := by
    have hle : w <+: w ++ [h'.frames.size] := List.prefix_append _ _
    have hU : U.Le U := .refl U
    rw [Heap.slots_newFrame, Heap.slots_newFrame, hh.size]
    by_cases hlt : f < w.length
    · rw [List.getElem?_append_left hlt] at hf
      have hb := hh.bound f' (List.mem_of_getElem? hf)
      rw [if_neg (Nat.ne_of_lt hlt), if_neg (Nat.ne_of_lt hb)]
      exact (hh.slots f f' hf).mono hU hle
    · obtain ⟨hlast, -⟩ := List.getElem?_eq_some_iff.mp hf
      rw [List.length_append, List.length_singleton] at hlast
      obtain rfl : f = w.length := Nat.le_antisymm (Nat.le_of_lt_succ hlast) (Nat.not_lt.mp hlt)
      obtain rfl : h'.frames.size = f' := by simpa using hf
      rw [if_pos rfl, if_pos rfl]
      exact hs.mono hU hle
  fields_size := hh.fields_size
  fields i := (hh.fields i).mono (.refl U) (List.prefix_append _ _)
  nextId := hh.nextId

/-- Only the second heap gets a frame. -/
theorem newFrame_right (hh : HeapBeside U w h h') (s' : Slots) : HeapBeside U w h (h'.newFrame s').2 where
  size := hh.size
  bound f hf := by
    rw [show (h'.newFrame s').2.frames.size = h'.frames.size + 1 by simp [Heap.newFrame]]
    exact Nat.lt_succ_of_lt (hh.bound f hf)
  nodup := hh.nodup
  globals := hh.globals
  slots f f' hf := by
    rw [Heap.slots_newFrame, if_neg (Nat.ne_of_lt (hh.bound f' (List.mem_of_getElem? hf)))]
    exact hh.slots f f' hf
  fields_size := hh.fields_size
  fields := hh.fields
  nextId := hh.nextId

/-- A name is bound in a frame and in its partner. -/
theorem define (hh : HeapBeside U w h h') {f f' : FrameId} (hf : w[f]? = some f') (n : String) {v v' : Value}
    (hv : ValueBeside U w v v') : HeapBeside U w (h.define f n v) (h'.define f' n v') where
  size := by simp [Heap.define, hh.size]
  bound g hg := by
    rw [show (h'.define f' n v').frames.size = h'.frames.size by simp [Heap.define]]
    exact hh.bound g hg
  nodup := hh.nodup
  globals := hh.globals
  slots g g' hg := by
    have hlt := (List.getElem?_eq_some_iff.mp hf).1
    by_cases he : g = f
    · subst he
      obtain rfl : f' = g' := Option.some.inj (hf.symm.trans hg)
      rw [Heap.slots_define_self _ (hh.size ▸ hlt),
        Heap.slots_define_self _ (hh.bound _ (List.mem_of_getElem? hf))]
      exact Slots.define_rel (hh.slots g f' hf) n hv
    · have hne : g' ≠ f' := by
        rintro rfl
        exact he ((List.getElem?_inj (List.getElem?_eq_some_iff.mp hg).1 hh.nodup).mp (hg.trans hf.symm))
      rw [Heap.slots_define_of_ne _ he, Heap.slots_define_of_ne _ hne]
      exact hh.slots g g' hg
  fields_size := hh.fields_size
  fields := hh.fields
  nextId := hh.nextId

theorem newId (hh : HeapBeside U w h h') : HeapBeside U w h.newId.2 h'.newId.2 :=
  { hh with nextId := congrArg (· + 1) hh.nextId }

theorem newInstance (hh : HeapBeside U w h h') : HeapBeside U w h.newInstance.2 h'.newInstance.2 :=
  { hh with
    fields_size := by simp [Heap.newInstance, hh.fields_size]
    fields := fun i => by
      have hi := hh.fields i
      simp only [Heap.newInstance, Array.getD_eq_getD_getElem?, Array.getElem?_push, hh.fields_size] at hi ⊢
      split
      · exact .nil
      · exact hi }

theorem setField (hh : HeapBeside U w h h') (i : Nat) (n : String) {v v' : Value} (hv : ValueBeside U w v v') :
    HeapBeside U w (h.setField i n v) (h'.setField i n v') :=
  { hh with
    fields_size := by simp [Heap.setField, hh.fields_size]
    fields := fun j => by
      have hj := hh.fields j
      have hs := hh.fields_size
      simp only [Heap.setField, Array.getD_eq_getD_getElem?, Array.getElem?_modify] at hj ⊢
      by_cases he : i = j
      · subst he
        by_cases hi : i < h.fields.size
        · simp only [Array.getElem?_eq_getElem hi, Array.getElem?_eq_getElem (hs ▸ hi), Option.getD_some,
            if_true, Option.map_some] at hj ⊢
          exact Slots.define_rel hj n hv
        · have hi' : ¬ i < h'.fields.size := by omega
          simp [hi, hi']
      · simpa [he] using hj }

theorem field? (hh : HeapBeside U w h h') (i : Nat) (n : String) :
    Option.Rel (ValueBeside U w) (h.field? i n) (h'.field? i n) := List.lookup_rel (hh.fields i) n

theorem lookup (hh : HeapBeside U w h h') {f f' : FrameId} (hf : w[f]? = some f') (n : String) :
    Option.Rel (ValueBeside U w) ((h.slots f).lookup n) ((h'.slots f').lookup n) :=
  List.lookup_rel (hh.slots f f' hf) n

theorem binds (hh : HeapBeside U w h h') {f f' : FrameId} (hf : w[f]? = some f') (n : String) :
    h'.binds f' n = h.binds f n := by
  have hl := hh.lookup hf n
  unfold Heap.binds Slots.binds
  revert hl
  generalize (h.slots f).lookup n = o, (h'.slots f').lookup n = o'
  rintro ⟨⟩ <;> rfl

end HeapBeside

/-! ### Look-up by distance -/

/-- A breach without the distance that it tells. -/
def Inconsistency.bare : Inconsistency → Inconsistency
  | .unbound name _ => .unbound name 0
  | .chainEnds _ _ => .chainEnds 0 0
  | b => b

/-- Two look-ups that find related things, or come to the same breach but for distances. -/
def FoundBeside {α : Type} (R : α → α → Prop) : Except Inconsistency α → Except Inconsistency α → Prop
  | .ok a, .ok a' => R a a'
  | .error b, .error b' => b'.bare = b.bare
  | _, _ => False

section distances

variable {U : Tables} {w : Partners} {h h' : Heap} {Γ : Layers} {env env' : Env}

theorem HeapBeside.getAt (hh : HeapBeside U w h h') (ha : Aligned w Γ env env') (d : Nat) (n : String) :
    FoundBeside (ValueBeside U w) (h.getAt env d n) (h'.getAt env' (Γ.outward d) n) := by
  have hf := ha.frame d
  unfold Heap.getAt Heap.frameAt
  revert hf
  generalize env[d]? = o, env'[Γ.outward d]? = o'
  rintro (⟨hf⟩ | _)
  · have hl := hh.lookup hf n
    simp only [bind, Except.bind]
    revert hl
    generalize (h.slots _).lookup n = v, (h'.slots _).lookup n = v'
    rintro (⟨hv⟩ | _)
    · exact hv
    · rfl
  · rfl

theorem HeapBeside.bindingFrameAt (hh : HeapBeside U w h h') (ha : Aligned w Γ env env') (d : Nat)
    (n : String) :
    FoundBeside (fun f f' => w[f]? = some f') (h.bindingFrameAt env d n)
      (h'.bindingFrameAt env' (Γ.outward d) n) := by
  have hf := ha.frame d
  unfold Heap.bindingFrameAt Heap.frameAt
  revert hf
  generalize env[d]? = o, env'[Γ.outward d]? = o'
  rintro (⟨hf⟩ | _)
  · simp only [bind, Except.bind, hh.binds hf]
    split
    · exact hf
    · rfl
  · rfl

end distances

/-! ### Values without braces and scope chains -/

/-- A function without redundant braces and without its scope chain. -/
def Closure.bare (c : Closure) : Closure := ⟨c.decl.unbraced, [], c.isInitializer⟩

/-- A class body with bare methods. -/
def ClassBody.bare (b : ClassBody) : ClassBody := { b with methods := b.methods.map fun p => (p.1, p.2.bare) }

/-- A class with bare methods. -/
def Class.bare (c : Class) : Class := ⟨c.own.bare, c.ancestors.map ClassBody.bare⟩

/-- A value without redundant braces in code and without the scope chains of functions. -/
def Value.bare : Value → Value
  | .function id c => .function id c.bare
  | .cls c => .cls c.bare
  | .instance_ id c => .instance_ id c.bare
  | v => v

/-- Slots with bare values. -/
def Slots.bare (s : Slots) : Slots := s.map fun p => (p.1, p.2.bare)

/-- Related lists are the same after changes that make related things the same. -/
theorem List.map_eq_of_forall₂ {α β γ : Type} {R : α → β → Prop} {f : α → γ} {f' : β → γ}
    (hf : ∀ a b, R a b → f' b = f a) {l : List α} {l' : List β} (h : List.Forall₂ R l l') :
    l'.map f' = l.map f := by
  induction h with
  | nil => rfl
  | cons hr _ ih => exact congrArg₂ List.cons (hf _ _ hr) ih

section bare

variable {U : Tables} {w : Partners}

theorem MethodBeside.bare_eq {c c' : Closure} (h : MethodBeside U w c c') : c'.bare = c.bare := by
  obtain ⟨hi, Γ, -, hd⟩ := h
  rw [Closure.bare, hi, hd.unbraced_eq, Closure.bare]

theorem ClosureBeside.bare_eq {c c' : Closure} (h : ClosureBeside U w c c') : c'.bare = c.bare := by
  obtain ⟨hi, Γ, -, hd, -⟩ := h
  rw [Closure.bare, hi, hd.unbraced_eq, Closure.bare]

theorem BodyBeside.bare_eq {b b' : ClassBody} (h : BodyBeside U w b b') : b'.bare = b.bare := by
  have hm : b'.methods.map (fun p => (p.1, p.2.bare)) = b.methods.map fun p => (p.1, p.2.bare) :=
    List.map_eq_of_forall₂ (fun _ _ hp => Prod.ext hp.1 hp.2.bare_eq) h.methods
  rw [ClassBody.bare, hm, h.id, h.name, ClassBody.bare]

theorem ClassBeside.bare_eq {c c' : Class} (h : ClassBeside U w c c') : c'.bare = c.bare := by
  have ha : c'.ancestors.map ClassBody.bare = c.ancestors.map ClassBody.bare :=
    List.map_eq_of_forall₂ (fun _ _ hb => hb.bare_eq) h.ancestors
  rw [Class.bare, h.own.bare_eq, ha, Class.bare]

/-- Values beside each other are the same without braces and scope chains. -/
theorem ValueBeside.bare_eq {v v' : Value} (h : ValueBeside U w v v') : v'.bare = v.bare := by
  cases h with
  | function id h => exact congrArg (Value.function id) h.bare_eq
  | cls h => exact congrArg Value.cls h.bare_eq
  | instance_ id h => exact congrArg (Value.instance_ id) h.bare_eq
  | _ => rfl

theorem SlotsBeside.bare_eq {s s' : Slots} (h : SlotsBeside U w s s') : s'.bare = s.bare :=
  List.map_eq_of_forall₂ (fun _ _ hp => Prod.ext hp.1 hp.2.bare_eq) h

end bare

end Lox
