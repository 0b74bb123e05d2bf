import Lox.Proofs.Keeping

/-! # Orderly machines

What a run makes of a machine, whatever it runs and however it ends.  A heap only grows: names stay bound, fields
stay set, and nothing that was made is made once more (`Heap.Grows`).  Every frame but that of the globals was made
for one scope, and binds names of that scope only (`Framed`).  Every class was made by a class statement, after the
class it inherits from, and every initializer that can be called was bound to an instance (`Value.Genuine`).

All this is said of a recorder (`Recorder.Orderly`), and here it is shown of the single changes to a heap. -/

namespace Lox

/-- What actions one after another come to, if to a value. -/
theorem of_bind_ok {σ ε α β : Type} {act : EStateM ε σ α} {f : α → EStateM ε σ β} {s t : σ} {b : β}
    (h : (act >>= f) s = .ok b t) : ∃ a u, act s = .ok a u ∧ f a u = .ok b t := by
  cases hrun : act s with
  | ok a u =>
    rw [bind_ok hrun] at h
    exact ⟨a, u, rfl, h⟩
  | error e u =>
    rw [bind_error hrun] at h
    cases h

/-! ### Regular code -/

/-- A statement as analysis accepts it: it is formed, and no local scope in it has a name twice. -/
structure Stmt.Regular (s : Stmt NodeId) : Prop where
  formed : s.Formed
  distinct : ∀ scope ∈ s.scopes, Distinct scope

/-- A function as analysis accepts it. -/
structure FunDecl.Regular (d : FunDecl NodeId) : Prop where
  formed : d.Formed
  distinct : ∀ scope ∈ d.scopes, Distinct scope

/-- The names of the scope of a function: its parameters, and what its body declares. -/
def FunDecl.names (d : FunDecl NodeId) : List String := (d.params ++ Stmt.declarations d.body).map Lexeme.text

section regular

theorem Stmt.regular_all {body : List (Stmt NodeId)} (hf : Stmt.FormedAll body)
    (hd : ∀ scope ∈ Stmt.scopesAll body, Distinct scope) : ∀ s ∈ body, s.Regular := by
  induction body with
  | nil => exact List.forall_mem_nil _
  | cons s body ih =>
    obtain ⟨hs, hbody⟩ := List.forall_mem_append.mp hd
    exact List.forall_mem_cons.mpr ⟨⟨hf.1, hs⟩, ih hf.2 hbody⟩

theorem FunDecl.regular_each {decls : List (FunDecl NodeId)} (hf : FunDecl.FormedEach decls)
    (hd : ∀ scope ∈ FunDecl.scopesEach decls, Distinct scope) : ∀ d ∈ decls, d.Regular := by
  induction decls with
  | nil => exact List.forall_mem_nil _
  | cons d decls ih =>
    obtain ⟨hs, hdecls⟩ := List.forall_mem_append.mp hd
    exact List.forall_mem_cons.mpr ⟨⟨hf.1, hs⟩, ih hf.2 hdecls⟩

theorem Stmt.Regular.block {body : List (Stmt NodeId)} (h : (Stmt.block body).Regular) : ∀ s ∈ body, s.Regular :=
  Stmt.regular_all h.formed fun scope hs => h.distinct scope (List.mem_cons_of_mem _ hs)

theorem FunDecl.Regular.body {d : FunDecl NodeId} (h : d.Regular) : ∀ s ∈ d.body, s.Regular := by
  obtain ⟨name, params, body⟩ := d
  exact Stmt.regular_all h.formed.2 fun scope hs => h.distinct scope (List.mem_cons_of_mem _ hs)

/-- The parameters of a function are different names. -/
theorem FunDecl.Regular.params {d : FunDecl NodeId} (h : d.Regular) : (d.params.map Lexeme.text).Nodup := by
  obtain ⟨name, params, body⟩ := d
  have hscope : ((params ++ Stmt.declarations body).map Lexeme.text).Nodup := h.distinct _ List.mem_cons_self
  rw [List.map_append] at hscope
  exact (List.nodup_append.mp hscope).1

/-- Names that regular code declares may be declared. -/
theorem Stmt.Regular.ordinary {s : Stmt NodeId} (h : s.Regular) {t : Lexeme} (ht : s.declared? = some t) :
    Ordinary t.text := by
  have hall : Stmt.FormedAll [s] := ⟨h.formed, trivial⟩
  refine (hall.isName t ?_).ordinary
  rw [Stmt.declarations_cons, ht]
  exact List.mem_append_left _ (List.mem_singleton_self t)

end regular

/-! ### Growing heaps -/

/-- A list of one slot. -/
theorem Slots.lookup_singleton {n m : String} {v u : Value} (h : List.lookup n ([(m, v)] : Slots) = some u) :
    n = m ∧ u = v := by
  rw [List.lookup_cons] at h
  split at h
  · rename_i hn
    exact ⟨eq_of_beq hn, (Option.some.inj h).symm⟩
  · exact absurd h (by simp)

/-- A later heap: there is more in it, and nothing has gone. -/
structure Heap.Grows (h h' : Heap) : Prop where
  frames : h.frames.size ≤ h'.frames.size
  instances : h.fields.size ≤ h'.fields.size
  nextId : h.nextId ≤ h'.nextId
  binds : ∀ f n, h.binds f n = true → h'.binds f n = true
  set : ∀ i n, (h.field? i n).isSome → (h'.field? i n).isSome
  retains : h.Retains h'

namespace Heap

variable {h h' h'' : Heap}

theorem Grows.refl (h : Heap) : h.Grows h where
  frames := Nat.le_refl _
  instances := Nat.le_refl _
  nextId := Nat.le_refl _
  binds _ _ hb := hb
  set _ _ hs := hs
  retains := .refl h

theorem Grows.trans (h₁ : h.Grows h') (h₂ : h'.Grows h'') : h.Grows h'' where
  frames := Nat.le_trans h₁.frames h₂.frames
  instances := Nat.le_trans h₁.instances h₂.instances
  nextId := Nat.le_trans h₁.nextId h₂.nextId
  binds f n hb := h₂.binds f n (h₁.binds f n hb)
  set i n hs := h₂.set i n (h₁.set i n hs)
  retains f n v hn hv := h₂.retains f n v hn (h₁.retains f n v hn hv)

theorem Grows.define (h : Heap) (f : FrameId) {n : String} (hn : Ordinary n) (v : Value) :
    h.Grows (h.define f n v) where
  frames := Nat.le_of_eq Array.size_modify.symm
  instances := Nat.le_refl _
  nextId := Nat.le_refl _
  binds _ _ hb := h.binds_define v hb
  set _ _ hs := hs
  retains := .define h f hn v

theorem Grows.newFrame (h : Heap) (slots : Slots) : h.Grows (h.newFrame slots).2 where
  frames := by
    change _ ≤ (h.frames.push slots).size
    rw [Array.size_push]
    exact Nat.le_succ _
  instances := Nat.le_refl _
  nextId := Nat.le_refl _
  binds f n hb := by
    rw [Heap.binds, h.slots_newFrame]
    split
    · rename_i hf
      rw [Heap.binds, hf, h.slots_size] at hb
      exact absurd hb Bool.false_ne_true
    · exact hb
  set _ _ hs := hs
  retains := .newFrame h slots

theorem field?_newInstance (h : Heap) (i : Nat) (n : String) : h.newInstance.2.field? i n = h.field? i n := by
  simp only [newInstance, field?, Array.getD_eq_getD_getElem?, Array.getElem?_push]
  split
  · rename_i hi
    simp [hi]
  · rfl

theorem Grows.newInstance (h : Heap) : h.Grows h.newInstance.2 where
  frames := Nat.le_refl _
  instances := by
    change _ ≤ (h.fields.push []).size
    rw [Array.size_push]
    exact Nat.le_succ _
  nextId := Nat.le_refl _
  binds _ _ hb := hb
  set i n hs := by rwa [field?_newInstance]
  retains := .refl h

theorem Grows.newId (h : Heap) : h.Grows h.newId.2 where
  frames := Nat.le_refl _
  instances := Nat.le_refl _
  nextId := Nat.le_succ _
  binds _ _ hb := hb
  set _ _ hs := hs
  retains := .refl h

/-- A field that is set has its value, and all other fields have theirs. -/
theorem field?_setField (h : Heap) (i j : Nat) (n m : String) (v : Value) :
    (h.setField i n v).field? j m =
      if j = i ∧ i < h.fields.size ∧ m = n then some v else h.field? j m := by
  simp only [setField, field?, Array.getD_eq_getD_getElem?, Array.getElem?_modify]
  by_cases hj : i = j
  · subst hj
    by_cases hi : i < h.fields.size
    · by_cases hm : m = n
      · subst hm
        simp [hi, Slots.lookup_define_self]
      · simp [hi, hm, Slots.lookup_define_of_ne]
    · simp [hi]
  · simp [hj, Ne.symm hj]

theorem Grows.setField (h : Heap) (i : Nat) (n : String) (v : Value) : h.Grows (h.setField i n v) where
  frames := Nat.le_refl _
  instances := Nat.le_of_eq Array.size_modify.symm
  nextId := Nat.le_refl _
  binds _ _ hb := hb
  set j m hs := by
    rw [field?_setField]
    split
    · rfl
    · exact hs
  retains := .refl h

/-- To bind a name in a frame binds that name there, and else nothing. -/
theorem binds_of_define {f g : FrameId} {n m : String} {v : Value} (hb : (h.define f n v).binds g m = true) :
    h.binds g m = true ∨ g = f ∧ m = n := by
  rw [Heap.binds, h.slots_define] at hb
  split at hb
  · rename_i hg
    by_cases hm : m = n
    · exact .inr ⟨hg.1, hm⟩
    · rw [Slots.binds, Slots.lookup_define_of_ne _ _ hm] at hb
      exact .inl (hg.1 ▸ hb)
  · exact .inl hb

/-- A frame that is new holds what it is made with, and the others what they held. -/
theorem lookup_newFrame {h : Heap} {slots : Slots} {f : FrameId} {n : String} {v : Value}
    (hv : ((h.newFrame slots).2.slots f).lookup n = some v) :
    (h.slots f).lookup n = some v ∨ slots.lookup n = some v := by
  rw [h.slots_newFrame] at hv
  split at hv
  · exact .inr hv
  · exact .inl hv

end Heap

/-! ### Frames -/

/-- The names of the scope for which a frame is made when something happens, if one is made. -/
def Happening.scope? : Happening → Option (List String)
  | executes (.block body) => some ((Stmt.declarations body).map Lexeme.text)
  | enters f => some f.decl.names
  | binds _ _ => some ["this"]
  | makes _ _ _ (some _) => some ["super"]
  | _ => none

/-- At this moment the frame `f` is made, for a scope with these names. -/
structure Moment.Opens (k : Moment) (f : FrameId) (names : List String) : Prop where
  frame : k.frame = f
  scope : k.what.scope? = some names

/-- What a run begins with: the settings, the names of the globals that there are, the statements at the top level,
and the moments of the runs before. -/
structure Outset where
  settings : Settings
  globals : List String
  body : List (Stmt NodeId)
  past : History

/-- At this moment a statement at the top level runs, and declares a name. -/
def Moment.Declares (o : Outset) (k : Moment) (n : String) : Prop :=
  k.machine.env = [globalFrame] ∧ ∃ s ∈ o.body, k.what = .executes s ∧ ∃ t, s.declared? = some t ∧ t.text = n

/-- A moment of the run that began so. -/
def Outset.Reaches (o : Outset) (past : History) (k : Moment) : Prop := ∃ new, past = new ++ o.past ∧ k ∈ new

/-- A name that may be that of a global: it was at the outset, or has been declared at the top level since. -/
def Outset.Admits (o : Outset) (past : History) (n : String) : Prop :=
  n ∈ o.globals ∨ ∃ k, o.Reaches past k ∧ k.Declares o n

/-- A name that may be declared in the innermost frame of a chain: that of a global, or one of the scope that the
frame was made for. -/
def Declarable (o : Outset) (past : History) (env : Env) (n : String) : Prop :=
  (env = [globalFrame] ∧ o.Admits past n) ∨
    ∃ k ∈ past, ∃ f names outer, k.Opens f names ∧ env = f :: outer ∧ n ∈ names

theorem Outset.Reaches.mono {o : Outset} {past past' : History} (hp : past <:+ past') {k : Moment}
    (h : o.Reaches past k) : o.Reaches past' k := by
  obtain ⟨late, rfl⟩ := hp
  obtain ⟨new, rfl, hk⟩ := h
  exact ⟨late ++ new, (List.append_assoc ..).symm, List.mem_append_right _ hk⟩

theorem Outset.Admits.mono {o : Outset} {past past' : History} (hp : past <:+ past') {n : String}
    (h : o.Admits past n) : o.Admits past' n := by
  rcases h with h | ⟨k, hk, hd⟩
  · exact .inl h
  · exact .inr ⟨k, hk.mono hp, hd⟩

theorem Declarable.mono {o : Outset} {past past' : History} (hp : past <:+ past') {env : Env} {n : String}
    (h : Declarable o past env n) : Declarable o past' env n := by
  rcases h with ⟨henv, hn⟩ | ⟨k, hk, rest⟩
  · exact .inl ⟨henv, hn.mono hp⟩
  · exact .inr ⟨k, hp.subset hk, rest⟩

/-- Every frame but that of the globals was made at one moment, for one scope, and binds names of this scope only;
the frame of the globals binds names that it may. -/
structure Framed (o : Outset) (past : History) (h : Heap) : Prop where
  root : globalFrame < h.frames.size
  globals : ∀ n, h.binds globalFrame n = true → o.Admits past n
  frames : ∀ f, f ≠ globalFrame → f < h.frames.size →
    ∃ k ∈ past, ∃ names, k.Opens f names ∧ ∀ n, h.binds f n = true → n ∈ names
  opened : ∀ k ∈ past, ∀ f names, k.Opens f names → f ≠ globalFrame ∧ f < h.frames.size
  once : ∀ k ∈ past, ∀ j ∈ past, ∀ f names names', k.Opens f names → j.Opens f names' → k = j

namespace Framed

variable {o : Outset} {past : History} {h : Heap}

/-- At another outset, with all names of the globals that there are. -/
theorem rebase {o' : Outset} (hn : ∀ n, h.binds globalFrame n = true → n ∈ o'.globals) (hf : Framed o past h) :
    Framed o' past h :=
  { hf with globals := fun n hb => .inl (hn n hb) }

/-- A change to a heap that makes no frame and binds no name anew. -/
theorem same {h' : Heap} (hf : Framed o past h) (hsize : h'.frames.size = h.frames.size)
    (hb : ∀ f n, h'.binds f n = true → h.binds f n = true) : Framed o past h' where
  root := hsize ▸ hf.root
  globals n hn := hf.globals n (hb _ n hn)
  frames f h0 hlt := by
    obtain ⟨k, hk, names, hopens, hnames⟩ := hf.frames f h0 (hsize ▸ hlt)
    exact ⟨k, hk, names, hopens, fun n hn => hnames n (hb f n hn)⟩
  opened k hk f names ho := ⟨(hf.opened k hk f names ho).1, hsize ▸ (hf.opened k hk f names ho).2⟩
  once := hf.once

/-- Something happens for which no frame is made. -/
theorem note (hf : Framed o past h) {k : Moment} (hk : k.what.scope? = none) : Framed o (k :: past) h where
  root := hf.root
  globals n hn := (hf.globals n hn).mono (List.suffix_cons _ _)
  frames f h0 hlt := by
    obtain ⟨j, hj, rest⟩ := hf.frames f h0 hlt
    exact ⟨j, List.mem_cons_of_mem _ hj, rest⟩
  opened := List.forall_mem_cons.mpr ⟨fun f names ho => by simp [ho.scope] at hk, hf.opened⟩
  once := by
    have hnone {f : FrameId} {names : List String} (ho : k.Opens f names) : False := by simp [ho.scope] at hk
    refine List.forall_mem_cons.mpr ⟨fun j _ f names names' ho => (hnone ho).elim, fun i hi => ?_⟩
    exact List.forall_mem_cons.mpr ⟨fun f names names' _ ho => (hnone ho).elim, hf.once i hi⟩

/-- A frame is made for the scope of what happens, and binds names of it. -/
theorem opens (hf : Framed o past h) {k : Moment} (hk : k.frame = h.frames.size) {names : List String}
    (hs : k.what.scope? = some names) (slots : Slots) (hn : ∀ n, slots.binds n = true → n ∈ names) :
    Framed o (k :: past) (h.newFrame slots).2 := by
  have hsize : (h.newFrame slots).2.frames.size = h.frames.size + 1 := Array.size_push ..
  have hold (f : FrameId) (hlt : f < h.frames.size) (n : String) :
      (h.newFrame slots).2.binds f n = h.binds f n := by
    rw [Heap.binds, h.slots_newFrame, if_neg (Nat.ne_of_lt hlt), ← Heap.binds]
  have hnew (n : String) : (h.newFrame slots).2.binds h.frames.size n = slots.binds n := by
    rw [Heap.binds, h.slots_newFrame, if_pos rfl]
  have hroot : h.frames.size ≠ globalFrame := Nat.ne_of_gt hf.root
  have hopens {f : FrameId} {names' : List String} (ho : k.Opens f names') : f = h.frames.size :=
    ho.frame.symm.trans hk
  refine ⟨by rw [hsize]; exact Nat.lt_succ_of_lt hf.root, fun n hn => ?_, fun f h0 hlt => ?_, ?_, ?_⟩
  · exact (hf.globals n (hold _ hf.root n ▸ hn)).mono (List.suffix_cons _ _)
  · rcases Nat.lt_succ_iff_lt_or_eq.mp (hsize ▸ hlt) with hlt | rfl
    · obtain ⟨j, hj, names', ho, hb⟩ := hf.frames f h0 hlt
      exact ⟨j, List.mem_cons_of_mem _ hj, names', ho, fun n hn => hb n (hold f hlt n ▸ hn)⟩
    · exact ⟨k, List.mem_cons_self, names, ⟨hk, hs⟩, fun n hb => hn n (hnew n ▸ hb)⟩
  · refine List.forall_mem_cons.mpr ⟨fun f names' ho => ?_, fun j hj f names' ho => ?_⟩
    · rw [hopens ho, hsize]
      exact ⟨hroot, Nat.lt_succ_self _⟩
    · exact ⟨(hf.opened j hj f names' ho).1, hsize ▸ Nat.lt_succ_of_lt (hf.opened j hj f names' ho).2⟩
  · -- a frame that was there is not the new one
    have hother {j : Moment} (hj : j ∈ past) {f : FrameId} {a b : List String} (ho : k.Opens f a)
        (ho' : j.Opens f b) : False := by
      have hlt := (hf.opened j hj f b ho').2
      rw [hopens ho] at hlt
      exact Nat.lt_irrefl _ hlt
    refine List.forall_mem_cons.mpr ⟨List.forall_mem_cons.mpr ⟨fun _ _ _ _ _ => rfl, ?_⟩, fun i hi => ?_⟩
    · exact fun j hj f a b ho ho' => (hother hj ho ho').elim
    · exact List.forall_mem_cons.mpr ⟨fun f a b ho ho' => (hother hi ho' ho).elim, hf.once i hi⟩

/-- A name is bound in a frame that binds it, or in the innermost frame of a chain where it may be declared. -/
theorem define (hf : Framed o past h) {f : FrameId} {n : String} (v : Value)
    (hn : h.binds f n = true ∨ ∃ env, Declarable o past (f :: env) n) :
    Framed o past (h.define f n v) := by
  have hsize : (h.define f n v).frames.size = h.frames.size := Array.size_modify
  refine ⟨hsize ▸ hf.root, fun m hm => ?_, fun g h0 hlt => ?_,
    fun k hk g names ho => ⟨(hf.opened k hk g names ho).1, hsize ▸ (hf.opened k hk g names ho).2⟩, hf.once⟩
  · rcases Heap.binds_of_define hm with hm | ⟨rfl, rfl⟩
    · exact hf.globals m hm
    · rcases hn with hn | ⟨env, ⟨henv, hn⟩ | ⟨k, hk, g, names, outer, ho, henv, -⟩⟩
      · exact hf.globals m hn
      · exact hn
      · cases henv
        exact absurd rfl (hf.opened k hk _ names ho).1
  · obtain ⟨k, hk, names, ho, hb⟩ := hf.frames g h0 (hsize ▸ hlt)
    refine ⟨k, hk, names, ho, fun m hm => ?_⟩
    rcases Heap.binds_of_define hm with hm | ⟨rfl, rfl⟩
    · exact hb m hm
    · rcases hn with hn | ⟨env, ⟨henv, -⟩ | ⟨j, hj, g', names', outer, ho', henv, hn⟩⟩
      · exact hb m hn
      · cases henv
        exact absurd rfl h0
      · cases henv
        cases hf.once j hj k hk _ names' names ho' ho
        cases ho'.scope.symm.trans ho.scope
        exact hn

end Framed

/-! ### Values -/

/-- The class that a class statement makes. -/
def Making.made (c : Making) : Class :=
  ⟨⟨c.moment.machine.heap.nextId, c.name.text, methodTable c.methods c.chain⟩, c.parent.elim [] Class.bodies⟩

/-- Something happens that makes a class. -/
def Happening.IsMaking : Happening → Prop
  | makes _ _ _ _ => True
  | _ => False

/-- A class that a class statement made, after its superclass. -/
inductive Class.Made (past : History) : Class → Prop
  | intro {c : Making} (hmem : c.moment ∈ past)
      (hwhat : c.moment.what = .makes c.name c.superclass c.methods c.parent)
      (hmethods : ∀ d ∈ c.methods, d.Regular)
      (hbelow : ∀ k ∈ c.parent, k.own.id < c.moment.machine.heap.nextId)
      (hparent : ∀ k ∈ c.parent, Made past k) : Made past c.made

/-- A method that was bound to an object. -/
def Closure.BoundTo (past : History) (f : Closure) (object : Value) : Prop :=
  ∃ k ∈ past, ∃ method : Closure, k.what = .binds method object ∧ f = { method with env := k.frame :: method.env }

/-- A function that a program can have as a value: an initializer is bound to an object. -/
structure Closure.Genuine (past : History) (f : Closure) : Prop where
  regular : f.decl.Regular
  bound : f.isInitializer = true → ∃ object, f.BoundTo past object

/-- A value of a run: a function that a program can have, a class that was made, or an instance of such a class. -/
def Value.Genuine (r : Recorder) : Value → Prop
  | function _ f => f.Genuine r.past
  | cls c => c.Made r.past
  | instance_ id c => id < r.machine.heap.fields.size ∧ c.Made r.past
  | _ => True

theorem Value.Scalar.genuine {r : Recorder} {v : Value} (h : v.Scalar) : v.Genuine r := by
  cases h <;> trivial

/-- The value of a `return` is one of the run. -/
def Exit.Genuine (r : Recorder) : Exit → Prop
  | returned v => v.Genuine r
  | _ => True

/-- A later recorder. -/
structure Recorder.Before (r s : Recorder) : Prop where
  past : r.past <:+ s.past
  heap : r.machine.heap.Grows s.machine.heap

theorem Recorder.Before.refl (r : Recorder) : r.Before r := ⟨List.suffix_refl _, .refl _⟩

theorem Recorder.Before.trans {r s t : Recorder} (h₁ : r.Before s) (h₂ : s.Before t) : r.Before t :=
  ⟨h₁.past.trans h₂.past, h₁.heap.trans h₂.heap⟩

section genuine

variable {past past' : History} {r s : Recorder}

theorem Class.Made.mono (hp : past ⊆ past') {c : Class} (h : c.Made past) : c.Made past' := by
  induction h with
  | intro hmem hwhat hmethods hbelow _ ih => exact .intro (hp hmem) hwhat hmethods hbelow ih

theorem Closure.BoundTo.mono (hp : past ⊆ past') {f : Closure} {object : Value} (h : f.BoundTo past object) :
    f.BoundTo past' object := by
  obtain ⟨k, hk, rest⟩ := h
  exact ⟨k, hp hk, rest⟩

theorem Closure.Genuine.mono (hp : past ⊆ past') {f : Closure} (h : f.Genuine past) : f.Genuine past' where
  regular := h.regular
  bound hi := by
    obtain ⟨object, ho⟩ := h.bound hi
    exact ⟨object, ho.mono hp⟩

theorem Value.Genuine.later (hr : r.Before s) {v : Value} (h : v.Genuine r) : v.Genuine s := by
  cases v with
  | function id f => exact Closure.Genuine.mono hr.past.subset h
  | cls c => exact Class.Made.mono hr.past.subset h
  | instance_ id c => exact ⟨Nat.lt_of_lt_of_le h.1 hr.heap.instances, h.2.mono hr.past.subset⟩
  | _ => trivial

theorem Exit.Genuine.later (hr : r.Before s) {e : Exit} (h : e.Genuine r) : e.Genuine s := by
  cases e with
  | returned v => exact Value.Genuine.later hr h
  | _ => trivial

/-- The bodies of a class that was made. -/
theorem Class.Made.bodies {c : Class} (h : c.Made past) :
    ∀ body ∈ c.bodies, ∃ own : Making, own.moment ∈ past ∧ (∀ d ∈ own.methods, d.Regular) ∧
      body.methods = methodTable own.methods own.chain := by
  induction h with
  | @intro own hmem hwhat hmethods hbelow hparent ih =>
    refine List.forall_mem_cons.mpr ⟨⟨own, hmem, hmethods, rfl⟩, fun body hb => ?_⟩
    cases hp : own.parent with
    | none =>
      have hnone : body ∈ own.parent.elim [] Class.bodies := hb
      rw [hp] at hnone
      exact absurd hnone List.not_mem_nil
    | some k =>
      have hsome : body ∈ own.parent.elim [] Class.bodies := hb
      rw [hp] at hsome
      exact ih k hp body hsome

/-- A method that is found was declared in the statement of one of the classes. -/
theorem Class.Made.declared {c : Class} (h : c.Made past) {n : String} {f : Closure} (hf : c.find? n = some f) :
    f.decl.Regular ∧ f.isInitializer = (f.decl.name.text == initializerName) := by
  obtain ⟨body, hb, hl⟩ := List.exists_of_findSome?_eq_some hf
  obtain ⟨own, -, hmethods, hbody⟩ := h.bodies body hb
  obtain ⟨before, after, hm, -⟩ := List.lookup_eq_some_iff.mp hl
  have hmem : (n, f) ∈ methodTable own.methods own.chain := by
    rw [← hbody, hm]
    exact List.mem_append_right _ List.mem_cons_self
  obtain ⟨d, hd, he⟩ := List.mem_map.mp (List.mem_reverse.mp hmem)
  cases he
  exact ⟨hmethods d hd, rfl⟩

end genuine

/-- What is said of what happens: the code is regular, the values are those of the run, and a superclass is what the
superclass expression stands for. -/
def Happening.Genuine (S : Settings) (r : Recorder) : Happening → Prop
  | evaluates e => e.Spelled
  | executes s => s.Regular
  | calls callee values _ => (∃ v : Value, v.callable? = some callee ∧ v.Genuine r) ∧ (∀ v ∈ values, v.Genuine r) ∧
      values.length = callee.arity
  | enters f => f.decl.Regular
  | binds method object => method.isInitializer = (method.decl.name.text == initializerName) ∧ object.Genuine r
  | makes name superclass methods parent => name.IsName ∧ (∀ d ∈ methods, d.Regular) ∧
      (∀ k ∈ parent, k.Made r.past) ∧ superclass.mapM (readSuperclass S) r.machine = .ok parent r.machine
  | leaves => True
  | prints v => v.Genuine r

/-! ### Orderly recorders -/

/-- At this moment, after those before it, an assignment to a field of an instance is about to be evaluated, and the
value that the field is given is found. -/
def Moment.Sets (S : Settings) (k : Moment) (early : History) (i : Nat) (n : String) (v : Value) : Prop :=
  ∃ id object name value fuel c s s', k.what = .evaluates (.set id object name value) ∧ name.text = n ∧
    Traced.eval S fuel object ⟨k.machine, k :: early⟩ = .ok (.instance_ i c) s ∧
    Traced.eval S fuel value s = .ok v s'

/-- A field of an instance was given a value by an assignment. -/
def SetIn (S : Settings) (past : History) (i : Nat) (n : String) (v : Value) : Prop :=
  ∃ late k early, past = late ++ k :: early ∧ k.Sets S early i n v

theorem SetIn.mono {S : Settings} {past past' : History} (hp : past <:+ past') {i : Nat} {n : String} {v : Value}
    (h : SetIn S past i n v) : SetIn S past' i n v := by
  obtain ⟨new, rfl⟩ := hp
  obtain ⟨late, k, early, rfl, hk⟩ := h
  exact ⟨new ++ late, k, early, (List.append_assoc ..).symm, hk⟩

/-- What holds of a recorder at any moment of a run, in a run that begins with `o`. -/
structure Recorder.Orderly (o : Outset) (r : Recorder) : Prop where
  framed : Framed o r.past r.machine.heap
  slots : ∀ f n v, (r.machine.heap.slots f).lookup n = some v → v.Genuine r
  fields : ∀ i n v, r.machine.heap.field? i n = some v → v.Genuine r ∧ SetIn o.settings r.past i n v
  fills : ∀ k ∈ r.past, k.what.Fills (r.machine.heap.slots k.frame)
  numbered : ∀ k ∈ r.past, k.what.IsMaking → k.machine.heap.nextId < r.machine.heap.nextId
  numberedOnce : ∀ k ∈ r.past, ∀ j ∈ r.past, k.what.IsMaking → j.what.IsMaking →
    k.machine.heap.nextId = j.machine.heap.nextId → k = j
  grown : ∀ k ∈ r.past, k.machine.heap.Grows r.machine.heap

/-- A moment of a run: the recorder before it is orderly. -/
def Moment.Orderly (o : Outset) (k : Moment) (early : History) : Prop :=
  Recorder.Orderly o ⟨k.machine, early⟩ ∧ k.what.Genuine o.settings ⟨k.machine, early⟩

namespace Recorder.Orderly

variable {o : Outset} {r s : Recorder}

/-- At another outset, with all names of the globals that there are. -/
theorem rebase {o' : Outset} (hS : o'.settings = o.settings)
    (hn : ∀ n, r.machine.heap.binds globalFrame n = true → n ∈ o'.globals) (h : r.Orderly o) : r.Orderly o' :=
  { h with
    framed := h.framed.rebase hn
    fields := hS ▸ h.fields }

/-- A recorder with the same heap and history. -/
theorem machine (h : r.Orderly o) {m : Machine} (hm : m.heap = r.machine.heap) :
    Recorder.Orderly o ⟨m, r.past⟩ := by
  obtain ⟨heap, env, distances, depth, sink, readings⟩ := m
  cases hm
  have hv (v : Value) (hv : v.Genuine r) :
      v.Genuine ⟨⟨r.machine.heap, env, distances, depth, sink, readings⟩, r.past⟩ :=
    hv.later ⟨List.suffix_refl _, .refl _⟩
  exact ⟨h.framed, fun f n v hn => hv v (h.slots f n v hn), fun i n v hn => (h.fields i n v hn).imp (hv v) id, h.fills,
    h.numbered, h.numberedOnce, h.grown⟩

/-- The heap changes; the history does not. -/
theorem change (h : r.Orderly o) {heap : Heap} (hf : Framed o r.past heap)
    (hgrows : r.machine.heap.Grows heap)
    (hslots : ∀ f n v, (heap.slots f).lookup n = some v →
      (r.machine.heap.slots f).lookup n = some v ∨ v.Genuine r)
    (hfields : ∀ i n v, heap.field? i n = some v →
      r.machine.heap.field? i n = some v ∨ v.Genuine r ∧ SetIn o.settings r.past i n v) :
    Recorder.Orderly o ⟨{ r.machine with heap := heap }, r.past⟩ := by
  have hb : r.Before ⟨{ r.machine with heap := heap }, r.past⟩ := ⟨List.suffix_refl _, hgrows⟩
  refine ⟨hf, fun f n v hv => ?_, fun i n v hv => ?_,
    fun k hk => (h.fills k hk).retained hgrows.retains, fun k hk hm => ?_, h.numberedOnce,
    fun k hk => (h.grown k hk).trans hgrows⟩
  · exact ((hslots f n v hv).elim (h.slots f n v) id).later hb
  · exact ((hfields i n v hv).elim (h.fields i n v) id).imp (fun hv => hv.later hb) id
  · exact Nat.lt_of_lt_of_le (h.numbered k hk hm) hgrows.nextId

theorem define (h : r.Orderly o) {f : FrameId} {n : String} (hn : Ordinary n)
    (hd : r.machine.heap.binds f n = true ∨ ∃ env, Declarable o r.past (f :: env) n) {v : Value}
    (hv : v.Genuine r) :
    Recorder.Orderly o ⟨{ r.machine with heap := r.machine.heap.define f n v }, r.past⟩ := by
  refine h.change (h.framed.define v hd) (.define _ f hn v) (fun g m _ hu => ?_) fun _ _ _ hu => .inl hu
  rw [Heap.slots_define] at hu
  split at hu
  · rename_i hg
    by_cases hm : m = n
    · rw [hm, Slots.lookup_define_self] at hu
      exact .inr (Option.some.inj hu ▸ hv)
    · rw [Slots.lookup_define_of_ne _ _ hm] at hu
      exact .inl (hg.1 ▸ hu)
  · exact .inl hu

theorem setField (h : r.Orderly o) {i : Nat} {n : String} {v : Value} (hset : SetIn o.settings r.past i n v)
    (hv : v.Genuine r) :
    Recorder.Orderly o ⟨{ r.machine with heap := r.machine.heap.setField i n v }, r.past⟩ := by
  refine h.change (h.framed.same rfl fun _ _ hb => hb) (.setField _ i n v) (fun _ _ _ hu => .inl hu)
    fun j m u hu => ?_
  rw [Heap.field?_setField] at hu
  split at hu
  · rename_i hj
    obtain ⟨rfl, -, rfl⟩ := hj
    exact .inr (Option.some.inj hu ▸ ⟨hv, hset⟩)
  · exact .inl hu

theorem newInstance (h : r.Orderly o) :
    Recorder.Orderly o ⟨{ r.machine with heap := r.machine.heap.newInstance.2 }, r.past⟩ :=
  h.change (h.framed.same rfl fun _ _ hb => hb) (.newInstance _) (fun _ _ _ hu => .inl hu) fun j m _ hu =>
    .inl (r.machine.heap.field?_newInstance j m ▸ hu)

theorem newId (h : r.Orderly o) :
    Recorder.Orderly o ⟨{ r.machine with heap := r.machine.heap.newId.2 }, r.past⟩ :=
  h.change (h.framed.same rfl fun _ _ hb => hb) (.newId _) (fun _ _ _ hu => .inl hu) fun _ _ _ hu => .inl hu

/-- A value that is found at a distance. -/
theorem getAt (h : r.Orderly o) {env : Env} {d : Nat} {n : String} {v : Value}
    (hv : r.machine.heap.getAt env d n = .ok v) : v.Genuine r := by
  cases hf : env[d]? with
  | none => simp [Heap.getAt, Heap.frameAt, hf, bind, Except.bind] at hv
  | some f =>
    rw [Heap.getAt_of_frame n _ hf] at hv
    cases hl : (r.machine.heap.slots f).lookup n with
    | none =>
      rw [hl] at hv
      cases hv
    | some u =>
      rw [hl] at hv
      exact Except.ok.inj hv ▸ h.slots f n u hl

/-- The number of a class that was made is smaller than the next one. -/
theorem below (h : r.Orderly o) {c : Class} (hc : c.Made r.past) : c.own.id < r.machine.heap.nextId := by
  cases hc with
  | @intro own hmem hwhat hmethods hbelow hparent => exact h.numbered own.moment hmem (by rw [hwhat]; trivial)

/-- Something happens, and the heap changes for it. -/
theorem happens (h : r.Orderly o) {k : Moment} {heap : Heap} (hf : Framed o (k :: r.past) heap)
    (hbefore : k.machine.heap.Grows r.machine.heap) (hgrows : r.machine.heap.Grows heap)
    (hslots : ∀ f n v, (heap.slots f).lookup n = some v →
      (r.machine.heap.slots f).lookup n = some v ∨ v.Genuine r)
    (hfields : heap.field? = r.machine.heap.field?) (hfills : k.what.Fills (heap.slots k.frame))
    (hnumber : k.what.IsMaking →
      k.machine.heap.nextId = r.machine.heap.nextId ∧ r.machine.heap.nextId < heap.nextId) :
    Recorder.Orderly o ⟨{ r.machine with heap := heap }, k :: r.past⟩ := by
  have hb : r.Before ⟨{ r.machine with heap := heap }, k :: r.past⟩ := ⟨List.suffix_cons _ _, hgrows⟩
  refine ⟨hf, fun f n v hv => ?_, fun i n v hv => ?_, ?_, ?_, ?_, ?_⟩
  · exact ((hslots f n v hv).elim (h.slots f n v) id).later hb
  · exact (h.fields i n v (hfields ▸ hv)).imp (fun hv => hv.later hb) (SetIn.mono (List.suffix_cons _ _))
  · exact List.forall_mem_cons.mpr ⟨hfills, fun j hj => (h.fills j hj).retained hgrows.retains⟩
  · refine List.forall_mem_cons.mpr ⟨fun hm => ?_, fun j hj hm => ?_⟩
    · rw [(hnumber hm).1]
      exact (hnumber hm).2
    · exact Nat.lt_of_lt_of_le (h.numbered j hj hm) hgrows.nextId
  · -- the numbers of the classes before are smaller
    have hother {j : Moment} (hj : j ∈ r.past) (hmj : j.what.IsMaking) (hmk : k.what.IsMaking) :
        j.machine.heap.nextId ≠ k.machine.heap.nextId := by
      rw [(hnumber hmk).1]
      exact Nat.ne_of_lt (h.numbered j hj hmj)
    refine List.forall_mem_cons.mpr ⟨List.forall_mem_cons.mpr ⟨fun _ _ _ => rfl, ?_⟩, fun j hj => ?_⟩
    · exact fun j hj hmk hmj he => absurd he.symm (hother hj hmj hmk)
    · exact List.forall_mem_cons.mpr ⟨fun hmj hmk he => absurd he (hother hj hmj hmk), h.numberedOnce j hj⟩
  · exact List.forall_mem_cons.mpr ⟨hbefore.trans hgrows, fun j hj => (h.grown j hj).trans hgrows⟩

/-- Something happens for which neither a frame nor a class is made. -/
theorem note (h : r.Orderly o) (what : Happening) (hscope : what.scope? = none) (hfills : what.Fills [])
    (hmakes : ¬ what.IsMaking) : Recorder.Orderly o ⟨r.machine, ⟨r.machine, what⟩ :: r.past⟩ := by
  refine h.happens (k := ⟨r.machine, what⟩) (h.framed.note hscope) (.refl _) (.refl _) (fun _ _ _ hv => .inl hv) rfl
    ?_ fun hm => absurd hm hmakes
  change what.Fills (r.machine.heap.slots r.machine.heap.frames.size)
  rwa [r.machine.heap.slots_size]

/-- Something happens for which a frame is made. -/
theorem opens (h : r.Orderly o) {what : Happening} {names : List String} (hscope : what.scope? = some names)
    (hmakes : ¬ what.IsMaking) {slots : Slots} (hn : ∀ n, slots.binds n = true → n ∈ names)
    (hslots : ∀ n v, slots.lookup n = some v → v.Genuine r) (hfills : what.Fills slots) :
    Recorder.Orderly o
      ⟨{ r.machine with heap := (r.machine.heap.newFrame slots).2 }, ⟨r.machine, what⟩ :: r.past⟩ := by
  refine h.happens (k := ⟨r.machine, what⟩) (h.framed.opens rfl hscope slots hn) (.refl _) (.newFrame _ slots)
    (fun f n v hv => (Heap.lookup_newFrame hv).imp id (hslots n v)) rfl ?_ fun hm => absurd hm hmakes
  change what.Fills ((r.machine.heap.newFrame slots).2.slots r.machine.heap.frames.size)
  rwa [r.machine.heap.slots_newFrame, if_pos rfl]

end Recorder.Orderly

theorem Machine.defined_nextId (m : Machine) (n : String) (v : Value) :
    (m.defined n v).heap.nextId = m.heap.nextId := by
  unfold Machine.defined
  split <;> rfl

theorem Making.inside_nextId (c : Making) : c.inside.heap.nextId = c.moment.machine.heap.nextId := by
  unfold inside
  cases c.parent <;> exact c.moment.machine.defined_nextId c.name.text .nil

/-- A class is made, in a new frame if there is a superclass, and takes the next number. -/
theorem Making.orderly {o : Outset} {past : History} {c : Making}
    (h : Recorder.Orderly o ⟨c.moment.machine.defined c.name.text .nil, past⟩)
    (hbefore : c.moment.machine.heap.Grows (c.moment.machine.defined c.name.text .nil).heap)
    (hwhat : c.moment.what = .makes c.name c.superclass c.methods c.parent)
    (hparent : ∀ k ∈ c.parent, k.Made past) :
    Recorder.Orderly o ⟨{ c.inside with heap := c.inside.heap.newId.2 }, c.moment :: past⟩ := by
  have hid := c.moment.machine.defined_nextId c.name.text .nil
  have hframe : c.moment.frame = (c.moment.machine.defined c.name.text .nil).heap.frames.size :=
    (c.moment.machine.defined_size c.name.text .nil).symm
  unfold inside
  cases hp : c.parent with
  | none =>
    rw [hp] at hwhat
    have hscope : c.moment.what.scope? = none := by rw [hwhat]; rfl
    refine h.happens (((h.framed.note hscope).same rfl fun _ _ hb => hb)) hbefore (.newId _)
      (fun _ _ _ hv => .inl hv) rfl ?_ fun _ => ⟨hid.symm, Nat.lt_succ_self _⟩
    rw [hwhat]
    trivial
  | some k =>
    rw [hp] at hwhat
    have hscope : c.moment.what.scope? = some ["super"] := by rw [hwhat]; rfl
    have hframed := h.framed.opens hframe hscope [("super", .cls k)] fun n hn => by
      obtain ⟨v, hv⟩ := Option.isSome_iff_exists.mp hn
      exact List.mem_singleton.mpr (Slots.lookup_singleton hv).1
    refine h.happens (hframed.same rfl fun _ _ hb => hb) hbefore (.trans (.newFrame _ _) (.newId _))
      (fun f n v hv => (Heap.lookup_newFrame hv).imp id fun hn => ?_) rfl ?_
      fun _ => ⟨hid.symm, Nat.lt_succ_self _⟩
    · rw [(Slots.lookup_singleton hn).2]
      exact hparent k hp
    · rw [hwhat, hframe]
      change (((c.moment.machine.defined c.name.text .nil).heap.newFrame [("super", .cls k)]).2.slots
        (c.moment.machine.defined c.name.text .nil).heap.frames.size).lookup "super" = _
      rw [Heap.slots_newFrame, if_pos rfl]
      rfl

end Lox
