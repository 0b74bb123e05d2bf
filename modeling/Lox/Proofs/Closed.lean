import Lox.Proofs.Beside
import Lox.Proofs.Nodes
import Lox.Proofs.Renumbering

/-! # Closed machines

A machine is closed when all code in it has numbers below a bound, and all scope chains in it lead to frames that
there are (`Machine.Closed`); its table knows nothing from the bound on.  Numbers from the bound on are then free: to
give them other numbers changes nothing in the machine (`Machine.Closed.renumber_heap`), and whatever two tables know
of them, the heap stands beside itself (`Machine.Closed.beside`). -/

namespace Lox

/-! ### Numbers of code -/

/-- What holds of the number of every node of some expressions. -/
def AllLabels (P : NodeId → Prop) (xs : List Placed) : Prop := ∀ x ∈ xs, ∀ i ∈ labels x.expr.nodes, P i

section labels

variable {P : NodeId → Prop} {x : Placed} {xs ys : List Placed}

theorem AllLabels.left (h : AllLabels P (xs ++ ys)) : AllLabels P xs := fun x hx => h x (List.mem_append_left _ hx)

theorem AllLabels.right (h : AllLabels P (xs ++ ys)) : AllLabels P ys := fun x hx => h x (List.mem_append_right _ hx)

theorem AllLabels.head (h : AllLabels P (x :: xs)) : ∀ i ∈ labels x.expr.nodes, P i := h x List.mem_cons_self

theorem AllLabels.tail (h : AllLabels P (x :: xs)) : AllLabels P xs := fun y hy => h y (List.mem_cons_of_mem _ hy)

theorem AllLabels.imp {Q : NodeId → Prop} (h : AllLabels P xs) (hq : ∀ i, P i → Q i) : AllLabels Q xs :=
  fun x hx i hi => hq i (h x hx i hi)

/-- The number of a use of a name is that of a node. -/
theorem Expr.id_mem_labels {e : Expr NodeId} {u : UseKind × Reference NodeId} (hu : u ∈ e.references) :
    u.2.id ∈ labels e.nodes := by
  have hm : u.2.id ∈ useLabels e.nodes := (Expr.references_perm e).mem_iff.mp (List.mem_map_of_mem hu)
  obtain ⟨n, hn, he⟩ := List.mem_map.mp hm
  exact List.mem_map.mpr ⟨n, (List.mem_filter.mp hn).1, he⟩

end labels

/-! ### Code that keeps its numbers -/

section fixed

variable {f : NodeId → NodeId}

mutual

/-- An expression whose numbers stay stays as it is. -/
theorem Expr.map_fixed : ∀ e : Expr NodeId, (∀ i ∈ labels e.nodes, f i = i) → e.map f id = e
  | .literal i _, h => by
      have hi : f i = i := h i List.mem_cons_self
      rw [Expr.map, hi]
  | .group i inner, h => by
      obtain ⟨(hi : f i = i), h⟩ := List.forall_mem_cons.mp h
      rw [Expr.map, hi, Expr.map_fixed inner h]
  | .unary i _ _ operand, h => by
      obtain ⟨(hi : f i = i), h⟩ := List.forall_mem_cons.mp h
      rw [Expr.map, hi, Expr.map_fixed operand h, id]
  | .binary i _ _ left right, h => by
      obtain ⟨(hi : f i = i), h⟩ := List.forall_mem_cons.mp h
      obtain ⟨hl, hr⟩ := List.forall_mem_append.mp (List.map_append ▸ h)
      rw [Expr.map, hi, Expr.map_fixed left hl, Expr.map_fixed right hr, id]
  | .logical i _ _ left right, h => by
      obtain ⟨(hi : f i = i), h⟩ := List.forall_mem_cons.mp h
      obtain ⟨hl, hr⟩ := List.forall_mem_append.mp (List.map_append ▸ h)
      rw [Expr.map, hi, Expr.map_fixed left hl, Expr.map_fixed right hr, id]
  | .name ref, h => by
      have hi : f ref.id = ref.id := h _ List.mem_cons_self
      rw [Expr.map, Reference.map, hi, id]
  | .assign target value, h => by
      obtain ⟨(hi : f target.id = target.id), h⟩ := List.forall_mem_cons.mp h
      rw [Expr.map, Reference.map, hi, Expr.map_fixed value h, id]
  | .call i callee _ arguments, h => by
      obtain ⟨(hi : f i = i), h⟩ := List.forall_mem_cons.mp h
      obtain ⟨hl, hr⟩ := List.forall_mem_append.mp (List.map_append ▸ h)
      rw [Expr.map, hi, Expr.map_fixed callee hl, Expr.mapEach_fixed arguments hr, id]
  | .get i object _, h => by
      obtain ⟨(hi : f i = i), h⟩ := List.forall_mem_cons.mp h
      rw [Expr.map, hi, Expr.map_fixed object h, id]
  | .set i object _ value, h => by
      obtain ⟨(hi : f i = i), h⟩ := List.forall_mem_cons.mp h
      obtain ⟨hl, hr⟩ := List.forall_mem_append.mp (List.map_append ▸ h)
      rw [Expr.map, hi, Expr.map_fixed object hl, Expr.map_fixed value hr, id]
  | .this ref, h => by
      have hi : f ref.id = ref.id := h _ List.mem_cons_self
      rw [Expr.map, Reference.map, hi, id]
  | .super ref _, h => by
      have hi : f ref.id = ref.id := h _ List.mem_cons_self
      rw [Expr.map, Reference.map, hi, id, id]

theorem Expr.mapEach_fixed : ∀ es : List (Expr NodeId), (∀ i ∈ labels (Expr.nodesEach es), f i = i) →
    Expr.mapEach f id es = es
  | [], _ => rfl
  | e :: es, h => by
      rw [Expr.nodesEach, labels, List.map_append] at h
      obtain ⟨hl, hr⟩ := List.forall_mem_append.mp h
      rw [Expr.mapEach, Expr.map_fixed e hl, Expr.mapEach_fixed es hr]

end

theorem Expr.map?_fixed {around : Surroundings} {own : Option Lexeme} (e : Option (Expr NodeId))
    (h : AllLabels (fun i => f i = i) (e.toList.map fun e => ⟨around, own, e⟩)) : e.map (·.map f id) = e := by
  cases e with
  | none => rfl
  | some e => exact congrArg some (e.map_fixed h.head)

mutual

/-- A statement whose numbers stay stays as it is. -/
theorem Stmt.map_fixed : ∀ (s : Stmt NodeId) {around : Surroundings},
    AllLabels (fun i => f i = i) (s.expressions around) → s.map f id = s
  | .expression value, _, h => by rw [Stmt.map, value.map_fixed h.head]
  | .print value, _, h => by rw [Stmt.map, value.map_fixed h.head]
  | .var _ initializer, _, h => by rw [Stmt.map, Expr.map?_fixed initializer h, id]
  | .block body, _, h => by rw [Stmt.map, Stmt.mapAll_fixed body h]
  | .ite condition yes none, _, h => by rw [Stmt.map, condition.map_fixed h.head, yes.map_fixed h.tail]
  | .ite condition yes (some no), _, h => by
      rw [Stmt.map, condition.map_fixed h.head, yes.map_fixed h.tail.left, no.map_fixed h.tail.right]
  | .while condition body, _, h => by rw [Stmt.map, condition.map_fixed h.head, body.map_fixed h.tail]
  | .function decl, _, h => by rw [Stmt.map, decl.map_fixed h]
  | .ret _ value, _, h => by rw [Stmt.map, Expr.map?_fixed value h, id]
  | .cls _ none methods, _, h => by rw [Stmt.map, FunDecl.mapEach_fixed methods h, Option.map_none, id]
  | .cls _ (some superclass) methods, _, h => by
      have hi : f superclass.id = superclass.id := h.head _ List.mem_cons_self
      rw [Stmt.map, FunDecl.mapEach_fixed methods h.tail, Option.map_some, Reference.map, hi, id, id]

theorem Stmt.mapAll_fixed : ∀ (body : List (Stmt NodeId)) {around : Surroundings},
    AllLabels (fun i => f i = i) (Stmt.expressionsAll around body) → Stmt.mapAll f id body = body
  | [], _, _ => rfl
  | s :: body, _, h => by rw [Stmt.mapAll, s.map_fixed h.left, Stmt.mapAll_fixed body h.right]

theorem FunDecl.map_fixed : ∀ (d : FunDecl NodeId) {around : Surroundings},
    AllLabels (fun i => f i = i) (d.expressions around) → d.map f id = d
  | .mk _ params body, _, h => by rw [FunDecl.map, Stmt.mapAll_fixed body h, List.map_id, id]

theorem FunDecl.mapEach_fixed : ∀ (ds : List (FunDecl NodeId)) {around : Surroundings},
    AllLabels (fun i => f i = i) (FunDecl.expressionsEach around ds) → FunDecl.mapEach f id ds = ds
  | [], _, _ => rfl
  | d :: ds, _, h => by rw [FunDecl.mapEach, d.map_fixed h.left, FunDecl.mapEach_fixed ds h.right]

end

end fixed

/-! ### Code beside itself -/

section itself

variable {T : Std.HashMap NodeId Nat} {bound : NodeId}

/-- Uses in an expression whose numbers are known fit where all layers are shared. -/
theorem Expr.fitsAll_both {e : Expr NodeId} (h : ∀ i ∈ labels e.nodes, i < bound) (k : Nat) :
    (Tables.both T bound).FitsAll (List.replicate k .shared) e.references :=
  Tables.both_fits fun _ hu => h _ (Expr.id_mem_labels hu)

theorem Expr.fitsAll_both? {e : Option (Expr NodeId)} {around : Surroundings} {own : Option Lexeme}
    (h : AllLabels (· < bound) (e.toList.map fun e => ⟨around, own, e⟩)) (k : Nat) :
    ∀ x ∈ e, (Tables.both T bound).FitsAll (List.replicate k .shared) x.references := by
  rintro x ⟨⟩
  exact x.fitsAll_both h.head k

mutual

/-- A statement whose numbers are known is the same code as itself. -/
theorem Stmt.code_itself : ∀ (s : Stmt NodeId) {around : Surroundings}, AllLabels (· < bound) (s.expressions around) →
    ∀ k, BracedNode (Tables.both T bound) (List.replicate k .shared) s s
  | .expression value, _, h, k => .expression (value.fitsAll_both h.head k)
  | .print value, _, h, k => .print (value.fitsAll_both h.head k)
  | .var _ _, _, h, k => .var (Layers.open_replicate k) (Expr.fitsAll_both? h k)
  | .block body, _, h, k => .block (Stmt.codeAll_itself body h (k + 1))
  | .ite condition yes none, _, h, k => .ite (condition.fitsAll_both h.head k) (.same (yes.code_itself h.tail k))
  | .ite condition yes (some no), _, h, k =>
      .iteElse (condition.fitsAll_both h.head k) (.same (yes.code_itself h.tail.left k))
        (.same (no.code_itself h.tail.right k))
  | .while condition body, _, h, k => .while (condition.fitsAll_both h.head k) (.same (body.code_itself h.tail k))
  | .function decl, _, h, k => .function (Layers.open_replicate k) (decl.code_itself h k)
  | .ret keyword _, _, h, k => .ret keyword (Expr.fitsAll_both? h k)
  | .cls _ none methods, _, h, k => .base (Layers.open_replicate k) (FunDecl.codeEach_itself methods h (k + 1))
  | .cls _ (some superclass) methods, _, h, k =>
      .derived (Layers.open_replicate k) (Expr.fitsAll_both (e := .name superclass) h.head k _ List.mem_cons_self)
        (FunDecl.codeEach_itself methods h.tail (k + 2))

theorem Stmt.codeAll_itself : ∀ (body : List (Stmt NodeId)) {around : Surroundings},
    AllLabels (· < bound) (Stmt.expressionsAll around body) →
    ∀ k, BracedStmts (Tables.both T bound) (List.replicate k .shared) body body
  | [], _, _, _ => .nil _
  | s :: body, _, h, k => .cons (.same (s.code_itself h.left k)) (Stmt.codeAll_itself body h.right k)

theorem FunDecl.code_itself : ∀ (d : FunDecl NodeId) {around : Surroundings},
    AllLabels (· < bound) (d.expressions around) →
    ∀ k, BracedFun (Tables.both T bound) (List.replicate k .shared) d d
  | .mk name params body, _, h, k => .mk name params (Stmt.codeAll_itself body h (k + 1))

theorem FunDecl.codeEach_itself : ∀ (ds : List (FunDecl NodeId)) {around : Surroundings},
    AllLabels (· < bound) (FunDecl.expressionsEach around ds) →
    ∀ k, BracedFuns (Tables.both T bound) (List.replicate k .shared) ds ds
  | [], _, _, _ => .nil _
  | d :: ds, _, h, k => .cons (d.code_itself h.left k) (FunDecl.codeEach_itself ds h.right k)

end

end itself

/-! ### Closed values -/

/-- A list whose members stay stays as it is. -/
theorem List.map_fixed {α : Type} {f : α → α} {l : List α} (h : ∀ a ∈ l, f a = a) : l.map f = l :=
  (List.map_congr_left h).trans l.map_id

/-- The code of a function has numbers below a bound, and its scope chain leads to frames below another. -/
structure Closure.Closed (bound : NodeId) (size : Nat) (c : Closure) : Prop where
  labels : AllLabels (· < bound) (c.decl.expressions [])
  env : ∀ f ∈ c.env, f < size

/-- The methods of a class are closed. -/
def Class.Closed (bound : NodeId) (size : Nat) (c : Class) : Prop :=
  ∀ b ∈ c.bodies, ∀ p ∈ b.methods, p.2.Closed bound size

/-- The code in a value is closed. -/
def Value.Closed (bound : NodeId) (size : Nat) : Value → Prop
  | function _ c => c.Closed bound size
  | cls c | instance_ _ c => c.Closed bound size
  | _ => True

/-- The code in slots is closed. -/
def Slots.Closed (bound : NodeId) (size : Nat) (s : Slots) : Prop := ∀ p ∈ s, p.2.Closed bound size

/-- A machine in which all code has numbers below a bound, of which its table knows at most the distances of those,
and whose scope chains lead to frames that there are. -/
structure Machine.Closed (bound : NodeId) (m : Machine) : Prop where
  fresh : ∀ i, bound ≤ i → m.distances[i]? = none
  globals : globalFrame < m.heap.frames.size
  env : ∀ f ∈ m.env, f < m.heap.frames.size
  frames : ∀ s ∈ m.heap.frames, Slots.Closed bound m.heap.frames.size s
  fields : ∀ s ∈ m.heap.fields, Slots.Closed bound m.heap.frames.size s

/-! ### New numbers for free ones -/

section renumbering

variable {bound : NodeId} {size : Nat} {σ : NodeId → NodeId} (hσ : ∀ i, i < bound → σ i = i)

include hσ

/-- New numbers for those from the bound on change nothing in a closed function. -/
theorem Closure.Closed.renumber {c : Closure} (h : c.Closed bound size) : c.renumber σ = c := by
  obtain ⟨decl, env, initializer⟩ := c
  have hd : decl.map σ id = decl := decl.map_fixed (h.labels.imp hσ)
  rw [Closure.renumber, Closure.mapDecl, FunDecl.renumber, hd]

theorem ClassBody.renumber_closed {b : ClassBody} (h : ∀ p ∈ b.methods, p.2.Closed bound size) :
    b.mapDecl (FunDecl.renumber σ) = b := by
  have hm : b.methods.map (fun p => (p.1, p.2.renumber σ)) = b.methods :=
    List.map_fixed fun p hp => Prod.ext rfl ((h p hp).renumber hσ)
  obtain ⟨id, name, methods⟩ := b
  exact congrArg (ClassBody.mk id name) hm

theorem Class.Closed.renumber {c : Class} (h : c.Closed bound size) : c.renumber σ = c := by
  obtain ⟨own, ancestors⟩ := c
  obtain ⟨ho, ha⟩ := List.forall_mem_cons.mp h
  have hm : ancestors.map (ClassBody.mapDecl (FunDecl.renumber σ)) = ancestors :=
    List.map_fixed fun b hb => ClassBody.renumber_closed hσ (ha b hb)
  rw [Class.renumber, Class.mapDecl, hm, ClassBody.renumber_closed hσ ho]

theorem Value.Closed.renumber {v : Value} (h : v.Closed bound size) : v.renumber σ = v := by
  cases v with
  | function id c => exact congrArg (Value.function id) (Closure.Closed.renumber hσ h)
  | cls c => exact congrArg Value.cls (Class.Closed.renumber hσ h)
  | instance_ id c => exact congrArg (Value.instance_ id) (Class.Closed.renumber hσ h)
  | _ => rfl

theorem Slots.Closed.renumber {s : Slots} (h : Slots.Closed bound size s) : Slots.renumber σ s = s :=
  List.map_fixed fun p hp => Prod.ext rfl ((h p hp).renumber hσ)

/-- New numbers for those from the bound on change nothing in the heap of a closed machine. -/
theorem Machine.Closed.renumber_heap {m : Machine} (h : m.Closed bound) : m.heap.renumber σ = m.heap := by
  have hframes : m.heap.frames.map (Slots.renumber σ) = m.heap.frames :=
    (Array.map_congr_left fun s hs => (h.frames s hs).renumber hσ).trans (Array.map_id _)
  have hfields : m.heap.fields.map (Slots.renumber σ) = m.heap.fields :=
    (Array.map_congr_left fun s hs => (h.fields s hs).renumber hσ).trans (Array.map_id _)
  rw [Heap.renumber, Heap.mapDecl, hframes, hfields]

end renumbering

/-! ### Closed heaps beside themselves -/

section beside

variable {bound : NodeId} {size : Nat} {T : Std.HashMap NodeId Nat}

/-- Chains that lead to frames below a number are aligned with themselves when all frames below it are their own
partners. -/
theorem Aligned.itself {env : Env} (h : ∀ f ∈ env, f < size) : Aligned (List.range size) [] env env :=
  .shared_all (List.forall₂_same.mpr fun f hf => List.getElem?_range (h f hf))

theorem Closure.Closed.beside {c : Closure} (h : c.Closed bound size) :
    ClosureBeside (Tables.both T bound) (List.range size) c c :=
  ⟨rfl, [], .itself h.env, c.decl.code_itself h.labels 0, fun _ => Layers.open_nil⟩

theorem Closure.Closed.beside_method {c : Closure} (h : c.Closed bound size) :
    MethodBeside (Tables.both T bound) (List.range size) c c :=
  ⟨rfl, [], .itself h.env, c.decl.code_itself h.labels 1⟩

theorem ClassBody.beside_closed {b : ClassBody} (h : ∀ p ∈ b.methods, p.2.Closed bound size) :
    BodyBeside (Tables.both T bound) (List.range size) b b :=
  ⟨rfl, rfl, List.forall₂_same.mpr fun p hp => ⟨rfl, (h p hp).beside_method⟩⟩

theorem Class.Closed.beside {c : Class} (h : c.Closed bound size) :
    ClassBeside (Tables.both T bound) (List.range size) c c where
  own := ClassBody.beside_closed (List.forall_mem_cons.mp h).1
  ancestors := List.forall₂_same.mpr fun b hb => ClassBody.beside_closed ((List.forall_mem_cons.mp h).2 b hb)

theorem Value.Closed.beside {v : Value} (h : v.Closed bound size) :
    ValueBeside (Tables.both T bound) (List.range size) v v := by
  cases v with
  | nil => exact .nil
  | bool b => exact .bool b
  | number x => exact .number x
  | string s => exact .string s
  | clock => exact .clock
  | function id c => exact .function id (Closure.Closed.beside h)
  | cls c => exact .cls (Class.Closed.beside h)
  | instance_ id c => exact .instance_ id (Class.Closed.beside h)

theorem Slots.Closed.beside {s : Slots} (h : Slots.Closed bound size s) :
    SlotsBeside (Tables.both T bound) (List.range size) s s :=
  List.forall₂_same.mpr fun p hp => ⟨rfl, (h p hp).beside⟩

/-- What an array has at an index, if anything, is in it. -/
theorem slotsBeside_getD {a : Array Slots} (h : ∀ s ∈ a, Slots.Closed bound size s) (i : Nat) :
    SlotsBeside (Tables.both T bound) (List.range size) (a.getD i []) (a.getD i []) := by
  rw [Array.getD_eq_getD_getElem?]
  cases hs : a[i]? with
  | none => exact .nil
  | some s => exact (h s (Array.mem_of_getElem? hs)).beside

/-- The heap of a closed machine stands beside itself. -/
theorem Machine.Closed.beside {m : Machine} (h : m.Closed bound) :
    HeapBeside (Tables.both T bound) (List.range m.heap.frames.size) m.heap m.heap where
  size := List.length_range.symm
  bound f hf := List.mem_range.mp hf
  nodup := List.nodup_range
  globals := List.getElem?_range h.globals
  slots f f' hf := by
    obtain ⟨hlt, he⟩ := List.getElem?_eq_some_iff.mp hf
    obtain rfl : f = f' := by rwa [List.getElem_range] at he
    exact slotsBeside_getD h.frames f
  fields_size := rfl
  fields i := slotsBeside_getD h.fields i
  nextId := rfl

end beside

end Lox
