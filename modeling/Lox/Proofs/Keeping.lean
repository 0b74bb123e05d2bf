import Lox.Proofs.Provenance

/-! # Evaluation in its chains

Evaluation keeps what holds of the machines of a session (`keeps_evaluation`): the scope chain in which an
expression or a statement runs encloses it, the values in the heap are known, and the frames of methods and
classes hold what they were made with.  So at each evaluation of `this` or `super` the distance that
resolution recorded leads to the frame in which the innermost method around was bound, or to that in which
its class was made (`Lexical.yields`, `Lexical.finds`). -/

namespace Lox

open Traced

variable {S : Settings} {sites : List Site} {past : History} {path : Path} {env : Env} {x : Option Activation}
  {own : Option String}

/-! ### An evaluation of `this` or `super` -/

theorem Enclosed.happened {x : Activation} (h : Enclosed past path env (some x)) : x.Happened past := by
  generalize hy : some x = y at h
  induction h with
  | top => exact nomatch hy
  | block _ _ _ _ ih => exact ih hy
  | function _ _ _ _ ih => exact ih hy
  | method _ _ hx => exact Option.some.inj hy ▸ hx

/-- Where a class is around the code, a method is. -/
theorem Enclosed.activation (h : Enclosed past path env x) (hc : path.hasSuperclass? ≠ none) :
    ∃ y, x = some y := by
  rw [h.hasSuperclass?] at hc
  cases x with
  | none => exact absurd rfl hc
  | some y => exact ⟨y, rfl⟩

section evaluations

variable {m : Machine} {x : Activation} {ref : Reference NodeId}

/-- The frame that a method was bound in binds `this` to the object, which is an instance. -/
theorem Lexical.this (h : Lexical S sites past m) (hx : x.Happened past) :
    (∃ id c, x.object = .instance_ id c) ∧ (m.heap.slots x.bound.frame).lookup "this" = some x.object := by
  have hfills := h.fills x.bound hx.bound
  rwa [hx.binds] at hfills

/-- The frame that a class was made in binds `super` to its superclass. -/
theorem Lexical.super (h : Lexical S sites past m) (hx : x.Happened past) {parent : Class}
    (hp : x.origin.parent = some parent) :
    (m.heap.slots x.origin.moment.frame).lookup "super" = some (.cls parent) := by
  have hfills := h.fills x.origin.moment hx.origin.mem
  rwa [hx.origin.what, hp] at hfills

theorem valueAt_ok {d : Nat} {f : FrameId} {n : String} {v : Value} (hf : m.env[d]? = some f)
    (hv : (m.heap.slots f).lookup n = some v) : Action.valueAt d n m = .ok v m := by
  rw [valueAt_apply, Heap.getAt_of_frame n m.heap hf, hv]

/-- To read a name changes nothing. -/
theorem read_still (ref : Reference NodeId) (m : Machine) :
    (∃ v, Action.read .byDistance ref m = .ok v m) ∨ ∃ e, Action.read .byDistance ref m = .error e m := by
  rw [read_byDistance]
  unfold Action.valueOf
  cases m.distances[ref.id]? with
  | some d =>
      dsimp only
      rw [valueAt_apply]
      cases m.heap.getAt m.env d ref.name.text with
      | ok v => exact .inl ⟨v, rfl⟩
      | error b => exact .inr ⟨_, rfl⟩
  | none =>
      dsimp only
      rw [searchIn_apply]
      cases m.heap.search [globalFrame] ref.name.text with
      | some v => exact .inl ⟨v, rfl⟩
      | none => exact .inr ⟨_, rfl⟩

theorem Lexical.yields (hS : S.lookup = .byDistance) (h : Lexical S sites past m) {own : Option String}
    (hs : ⟨.uses .this ref own, path⟩ ∈ sites) (hx : Enclosed past path m.env (some x)) : x.Yields S ref m := by
  have hformed := h.settled.formed _ hs
  have hname : ref.name.text = "this" := hformed.mention
  obtain ⟨d, hd, hf, -⟩ := hx.frames hformed.path
  obtain ⟨hinstance, hv⟩ := h.this hx.happened
  have hrecorded : m.distances[ref.id]? = some d := by
    rw [h.settled.recorded _ hs ref rfl, hname, hd]
  refine ⟨hinstance, fun fuel => ?_⟩
  rw [eval_succ]
  change Action.read S.lookup ref m = _
  rw [hS, read_byDistance, hrecorded, Action.valueOf, hname, valueAt_ok hf hv]

/-- The method that is found, bound to the instance in a new frame. -/
theorem superMethod_apply (parent c : Class) (id : Nat) (method : Lexeme) (m : Machine) :
    match parent.find? method.text with
    | some found => ∃ k n, Lox.superMethod (.cls parent) (.instance_ id c) method m =
        .ok (.function k { found with env := m.heap.frames.size :: found.env }) n ∧
        n.heap.slots m.heap.frames.size = [("this", .instance_ id c)]
    | none => ∃ e, Lox.superMethod (.cls parent) (.instance_ id c) method m = .error (.failed e) m ∧
        e.fault.message = "Undefined property '" ++ method.text ++ "'." ∧ e.line = method.line := by
  unfold Lox.superMethod
  dsimp only
  cases parent.find? method.text with
  | none => exact ⟨_, rfl, rfl, rfl⟩
  | some found =>
      refine ⟨_, _, rfl, ?_⟩
      change (m.heap.newFrame [("this", .instance_ id c)]).2.slots m.heap.frames.size = _
      rw [m.heap.slots_newFrame, if_pos rfl]

theorem Lexical.finds (hS : S.lookup = .byDistance) (h : Lexical S sites past m) {own : Option String}
    (hs : ⟨.uses .super ref own, path⟩ ∈ sites) (hx : Enclosed past path m.env (some x)) (method : Lexeme) :
    x.Finds S ref method m := by
  have hformed := h.settled.formed _ hs
  have hname : ref.name.text = "super" := hformed.mention
  have hallowed := h.settled.allowed _ hs
  have hinherits := hx.happened.origin.inherits
  -- only a class with a superclass may use `super`, so there is a class to inherit from
  have hsome : x.origin.superclass.isSome = true := by
    have hc := hx.hasSuperclass?
    rw [Option.map_some] at hc
    simp only [Site.violation?, hc] at hallowed
    cases hsup : x.origin.superclass with
    | some _ => rfl
    | none =>
        rw [hsup] at hallowed
        exact nomatch hallowed
  obtain ⟨superclass, hsuperclass⟩ := Option.isSome_iff_exists.mp hsome
  unfold Making.Inherits at hinherits
  rw [hsuperclass] at hinherits
  obtain ⟨parent, hparent, hread⟩ := hinherits
  obtain ⟨d, -, hthis, hsuper⟩ := hx.frames hformed.path
  obtain ⟨hd, hf⟩ := hsuper (by rw [hparent]; rfl)
  obtain ⟨⟨id, c, hobject⟩, hv⟩ := h.this hx.happened
  have hrecorded : m.distances[ref.id]? = some (d + 1) := by
    rw [h.settled.recorded _ hs ref rfl, hname, hd]
  refine ⟨superclass, parent, hsuperclass, hparent, hread, ⟨id, c, hobject⟩, fun fuel => ?_⟩
  have hpair : Action.readSuper S.lookup ref method m = .ok (.cls parent, x.object) m := by
    rw [hS, readSuper_byDistance hrecorded, Action.superAt, bind_ok (valueAt_ok hf (h.super hx.happened hparent)),
      bind_ok (valueAt_ok hthis hv)]
    rfl
  have heval : eval S (fuel + 1) (.super ref method) m =
      Lox.superMethod (.cls parent) (.instance_ id c) method m := by
    rw [eval_succ, ← hobject]
    exact bind_ok hpair
  rw [heval, hobject]
  exact superMethod_apply parent c id method m

end evaluations

section moments

variable {r : Recorder}

/-- `this` and `super` are used in methods only. -/
theorem Recorder.Kept.usedIn (hr : r.Kept S sites past env) (h : Enclosed past path env x) {kind : UseKind}
    (hkind : kind = .this ∨ kind = .super) {ref : Reference NodeId}
    (hmem : ⟨.uses kind ref own, path⟩ ∈ sites) {what : Happening} {P : Activation → Prop}
    (hP : ∀ y, Enclosed r.past path r.machine.env (some y) → P y) :
    Moment.UsedIn sites ⟨r.machine, what⟩ r.past kind ref P := by
  have h' : Enclosed r.past path r.machine.env x := hr.env ▸ h.mono hr.past
  have hallowed := hr.lexical.settled.allowed _ hmem
  -- outside of all classes, the use would violate a rule
  obtain ⟨y, rfl⟩ := h'.activation fun hc => by
    rcases hkind with rfl | rfl <;> simp only [Site.violation?, hc] at hallowed <;> exact nomatch hallowed
  exact ⟨_, hmem, ⟨own, rfl⟩, ⟨y, h'⟩, hP⟩

/-- A moment at which an expression is evaluated whose chain encloses it. -/
theorem Recorder.Kept.lawful (hS : S.lookup = .byDistance) (hr : r.Kept S sites past env)
    (h : Enclosed past path env x) {e : Expr NodeId} (hs : usesSites path own e.references ⊆ sites) :
    Moment.Lawful S sites ⟨r.machine, .evaluates e⟩ r.past := by
  cases e with
  | this ref =>
      have hmem : ⟨.uses .this ref own, path⟩ ∈ sites := hs List.mem_cons_self
      exact hr.usedIn h (.inl rfl) hmem fun _ hx => hr.lexical.yields hS hmem hx
  | super ref method =>
      have hmem : ⟨.uses .super ref own, path⟩ ∈ sites := hs List.mem_cons_self
      exact hr.usedIn h (.inr rfl) hmem fun _ hx => hr.lexical.finds hS hmem hx method
  | _ => trivial

end moments

/-! ### The making of a class -/

/-- A machine after a name is bound in the innermost frame. -/
def Machine.defined (m : Machine) (n : String) (v : Value) : Machine :=
  match m.env with
  | [] => m
  | f :: _ => { m with heap := m.heap.define f n v }

theorem define_apply (n : String) (v : Value) (m : Machine) : Action.define n v m = .ok () (m.defined n v) := by
  obtain ⟨heap, env, distances, depth, sink, readings⟩ := m
  cases env <;> rfl

theorem Machine.Follows.defined {m : Machine} (h : m.heap.Known sites past) {n : String} (hn : Ordinary n)
    {v : Value} (hv : v.Known sites past) : m.Follows sites past (m.defined n v) := by
  unfold Machine.defined
  split
  · exact ⟨rfl, rfl, h, .refl _⟩
  · exact .heap (h.define _ n hv) (.define _ _ hn v)

theorem Machine.defined_env (m : Machine) (n : String) (v : Value) : (m.defined n v).env = m.env := by
  unfold Machine.defined
  split <;> rfl

theorem Machine.defined_size (m : Machine) (n : String) (v : Value) :
    (m.defined n v).heap.frames.size = m.heap.frames.size := by
  unfold Machine.defined
  split
  · rfl
  · exact Array.size_modify ..

namespace Making

/-- The machine in which the methods are made. -/
def inside (c : Making) : Machine :=
  let m := c.moment.machine.defined c.name.text .nil
  match c.parent with
  | none => m
  | some k => { m with heap := (m.heap.newFrame [("super", .cls k)]).2 }

/-- What remains to be done there: the class is made and bound to its name. -/
def finish (c : Making) : Action Unit := do
  let id ← Action.updateHeap Heap.newId
  Action.define c.name.text
    (.cls ⟨⟨id, c.name.text, methodTable c.methods c.chain⟩, c.parent.elim [] Class.bodies⟩)

theorem bindClass_eq (c : Making) :
    bindClass c.name c.methods c.parent c.moment.machine = c.finish c.inside := by
  obtain ⟨name, superclass, methods, parent, ⟨m, what⟩⟩ := c
  have hsize := m.defined_size name.text .nil
  have henv := m.defined_env name.text .nil
  unfold bindClass
  rw [bind_ok (define_apply name.text .nil m)]
  unfold finish chain inside Moment.frame
  cases parent with
  | none =>
      dsimp only
      rw [← henv]
      rfl
  | some k =>
      dsimp only
      rw [← henv, ← hsize]
      rfl

theorem inside_env (c : Making) : c.inside.env = c.moment.machine.env := by
  unfold inside
  cases c.parent <;> exact c.moment.machine.defined_env c.name.text .nil

/-- The frame that the methods are made in, if there is a superclass, binds `super` to it. -/
theorem inside_lexical {c : Making} (h : Lexical S sites past c.moment.machine) (hn : c.name.IsName)
    (hp : ∀ k ∈ c.parent, k.Known sites past)
    (hwhat : c.moment.what = .makes c.name c.superclass c.methods c.parent) :
    Lexical S sites (c.moment :: past) c.inside := by
  have hlaw : Moment.Lawful S sites c.moment past := by
    unfold Moment.Lawful
    rw [hwhat]
    trivial
  obtain ⟨name, superclass, methods, parent, ⟨m, what⟩⟩ := c
  change what = .makes name superclass methods parent at hwhat
  subst hwhat
  cases parent with
  | none =>
      have hnote : Lexical S sites (⟨m, .makes name superclass methods none⟩ :: past) m := h.note trivial hlaw
      exact hnote.follows (.defined hnote.known hn.ordinary trivial)
  | some k =>
      have hm : Lexical S sites past (m.defined name.text .nil) := h.follows (.defined h.known hn.ordinary trivial)
      have hframe : Moment.frame ⟨m, .makes name superclass methods (some k)⟩ =
        (m.defined name.text .nil).heap.frames.size := (m.defined_size name.text .nil).symm
      refine hm.opens hframe (fun n v hv => ?_) rfl hlaw
      rw [List.lookup_cons] at hv
      split at hv
      · exact Option.some.inj hv ▸ hp k rfl
      · cases hv

end Making

/-- The sites of a class statement. -/
theorem Stmt.sites_cls {name : Lexeme} {superclass : Option (Reference NodeId)}
    {methods : List (FunDecl NodeId)} (hs : Stmt.sites path (.cls name superclass methods) ⊆ sites) :
    ⟨.declares name, path⟩ ∈ sites ∧
      FunDecl.sitesEach (.cls name superclass methods :: path.declare name.text) methods ⊆ sites := by
  cases superclass with
  | none => exact List.cons_subset.mp hs
  | some superclass =>
      obtain ⟨hd, hs⟩ := List.cons_subset.mp hs
      exact ⟨hd, (List.append_subset.mp (List.cons_subset.mp hs).2).2⟩

/-! ### Evaluation -/

/-- Evaluation with given fuel keeps what holds of recorders, wherever an expression or a statement stands
whose chain encloses it and whose sites are known. -/
structure KeptBy (S : Settings) (sites : List Site) (ev : Expr NodeId → Traced Value)
    (ex : Stmt NodeId → Traced Unit) : Prop where
  expr {past : History} {path : Path} {env : Env} {x : Option Activation} {own : Option String} {e : Expr NodeId} :
    Enclosed past path env x → usesSites path own e.references ⊆ sites →
      Keeps S sites past env (ev e) fun past' v => v.Known sites past'
  stmt {past : History} {path : Path} {env : Env} {x : Option Activation} {s : Stmt NodeId} :
    Enclosed past path env x → s.sites path ⊆ sites → Keeps S sites past env (ex s) fun _ _ => True

namespace KeptBy

variable {ev : Expr NodeId → Traced Value} {ex : Stmt NodeId → Traced Unit} {α : Type}
  {post : History → α → Prop}

theorem evalEach (hk : KeptBy S sites ev ex) : ∀ (es : List (Expr NodeId)) {past : History},
    Enclosed past path env x → usesSites path own (Expr.referencesEach es) ⊆ sites →
    Keeps S sites past env (Traced.evalEach ev es) fun past' vs => ∀ v ∈ vs, v.Known sites past'
  | [], _, _, _ => .pure fun _ _ => List.forall_mem_nil _
  | e :: es, _, h, hs => by
      rw [Expr.referencesEach, usesSites_append, List.append_subset] at hs
      refine (hk.expr h hs.1).bind fun _ v h₁ hv => (evalEach hk es (h.mono h₁) hs.2).bind fun _ vs h₂ hvs => ?_
      exact .pure fun _ h₃ => List.forall_mem_cons.mpr
        ⟨hv.later (List.Subset.trans h₂ h₃), fun u hu => (hvs u hu).later h₃⟩

theorem evalOptional (hk : KeptBy S sites ev ex) (h : Enclosed past path env x) {e : Option (Expr NodeId)}
    (hs : (e.toList.flatMap fun v => usesSites path own v.references) ⊆ sites) :
    Keeps S sites past env (Traced.evalOptional ev e) fun past' v => v.Known sites past' := by
  cases e with
  | none => exact .pure fun _ _ => trivial
  | some e =>
      rw [Option.toList_some, List.flatMap_singleton] at hs
      exact hk.expr h hs

/-- Each statement runs in the scope of those before it. -/
theorem runAll (hk : KeptBy S sites ev ex) : ∀ (body : List (Stmt NodeId)) {path : Path} {past : History},
    Enclosed past path env x → Stmt.sitesAll path body ⊆ sites →
    Keeps S sites past env (Traced.runAll ex body) fun _ _ => True
  | [], _, _, _, _ => .pure fun _ _ => trivial
  | s :: body, _, _, h, hs => by
      rw [Stmt.sitesAll, List.append_subset] at hs
      exact (hk.stmt h hs.1).bind fun _ _ h₁ _ => runAll hk body ((h.declareAll s.introduced).mono h₁) hs.2

/-! #### Calls -/

theorem invoke (hk : KeptBy S sites ev ex) {f : Closure} (hf : f.Known sites past) {values : List Value}
    (hv : ∀ v ∈ values, v.Known sites past) :
    Keeps S sites past env (Traced.invoke ex f values) fun past' v => v.Known sites past' := by
  refine .opens (bindParams_known hv) trivial (fun _ _ => trivial) fun past' k h₁ hmem hwhat _ => ?_
  obtain ⟨path, x, hs, hin⟩ := (hf.mono (List.Subset.refl _) h₁).entered hmem hwhat
  have hsites : f.decl.sites path = declaresSites (.function f.decl [] :: path) f.decl.params ++
      Stmt.sitesAll (Path.declareAll (.function f.decl [] :: path) f.decl.params) f.decl.body := by
    cases f.decl
    rfl
  rw [hsites, List.append_subset] at hs
  refine (Keeps.within (hk.runAll f.decl.body (hin.declareAll _) hs.2)).returning.bind fun _ v _ hv => ?_
  cases f.isInitializer with
  | true => exact .ownInstance f
  | false => exact .pure fun _ h₃ => hv.later h₃

/-- A method is bound to an instance, and then something is done with it. -/
theorem bindTo {f : Closure} (hf : f.IsMethod sites past) {id : Nat} {c : Class} (hc : c.Known sites past)
    {t : Closure → Traced α}
    (h : ∀ past' k, past ⊆ past' → ({ f with env := k :: f.env } : Closure).Known sites past' →
      Keeps S sites past' env (t { f with env := k :: f.env }) post) :
    Keeps S sites past env (Traced.bindTo (.instance_ id c) f >>= t) post := by
  have hslots : ∀ n v, List.lookup n ([("this", .instance_ id c)] : Slots) = some v → v.Known sites past := by
    intro n v hv
    rw [List.lookup_cons] at hv
    split at hv
    · exact Option.some.inj hv ▸ hc
    · cases hv
  unfold Traced.bindTo
  simp only [bind_assoc, pure_bind]
  refine .opens hslots ⟨⟨id, c, rfl⟩, rfl⟩ (fun _ _ => trivial) fun past' k h₁ hmem hwhat _ => ?_
  exact h past' k.frame h₁ (.bound (hf.mono (List.Subset.refl _) h₁) hmem hwhat)

theorem construct (hk : KeptBy S sites ev ex) {c : Class} (hc : c.Known sites past) {values : List Value}
    (hv : ∀ v ∈ values, v.Known sites past) :
    Keeps S sites past env (Traced.construct ex c values) fun past' v => v.Known sites past' := by
  refine Keeps.newInstance.bind fun past₁ id h₁ _ => ?_
  have hc₁ : c.Known sites past₁ := hc.mono (List.Subset.refl _) h₁
  cases hinit : c.find? initializerName with
  | none => exact .pure fun _ h₂ => hc₁.mono (List.Subset.refl _) h₂
  | some init =>
      refine bindTo (hc₁.find? hinit) hc₁ fun past₂ _ h₂ hf => ?_
      refine (hk.invoke hf fun v hm => (hv v hm).later (List.Subset.trans h₁ h₂)).bind fun past₃ _ h₃ _ => ?_
      exact .pure fun _ h₄ => hc₁.mono (List.Subset.refl _) (List.Subset.trans h₂ (List.Subset.trans h₃ h₄))

theorem callValue (hk : KeptBy S sites ev ex) {f : Value} (hf : f.Known sites past) (closing : Lexeme)
    {values : List Value} (hv : ∀ v ∈ values, v.Known sites past) :
    Keeps S sites past env (Traced.callValue S ex f closing values) fun past' v => v.Known sites past' := by
  have hcall (callee : Callable) (hc : f.callable? = some callee) :
      Keeps S sites past env (Traced.call S ex callee values) fun past' v => v.Known sites past' := by
    cases f <;> simp only [Value.callable?, Option.some.injEq, reduceCtorEq] at hc <;> subst hc
    · exact .readClock _
    · exact hk.invoke hf hv
    · exact hk.construct hf hv
  unfold Traced.callValue
  cases hc : f.callable? with
  | none => exact .fail _ _
  | some callee =>
      dsimp only
      split
      · exact .fail _ _
      · exact (hcall callee hc).attempt fun hsub hv => Value.Known.later hsub hv

/-! #### Properties -/

theorem bound {f : Closure} (hf : f.IsMethod sites past) {id : Nat} {c : Class} (hc : c.Known sites past) :
    Keeps S sites past env (Traced.bound (.instance_ id c) f) fun past' v => v.Known sites past' :=
  bindTo hf hc fun _ _ _ hf => .newFunction hf

theorem property {object : Value} (ho : object.Known sites past) (name : Lexeme) :
    Keeps S sites past env (Traced.property object name) fun past' v => v.Known sites past' := by
  cases object with
  | instance_ id c =>
      refine (Keeps.fieldOf id name).bind fun past₁ v? h₁ hv => ?_
      have hc : c.Known sites past₁ := Class.Known.mono (List.Subset.refl _) h₁ ho
      cases v? with
      | some v => exact .pure fun _ h₂ => (hv v rfl).later h₂
      | none =>
          dsimp only
          cases hf : c.find? name.text with
          | some method => exact bound (hc.find? hf) hc
          | none => exact .fail _ _
  | _ => exact .fail _ _

theorem superMethod {superclass object : Value} (hs : superclass.Known sites past)
    (ho : object.Known sites past) (method : Lexeme) :
    Keeps S sites past env (Traced.superMethod superclass object method) fun past' v => v.Known sites past' := by
  cases superclass with
  | cls c =>
      cases object with
      | instance_ id c' =>
          unfold Traced.superMethod
          dsimp only
          cases hf : c.find? method.text with
          | some found => exact bound (Class.Known.find? hs hf) ho
          | none => exact .fail _ _
      | _ => exact .throw trivial
  | _ => exact .throw trivial

/-! #### Expressions -/

theorem evalWith (hS : S.lookup = .byDistance) (hk : KeptBy S sites ev ex) (h : Enclosed past path env x)
    {e : Expr NodeId} (hs : usesSites path own e.references ⊆ sites) :
    Keeps S sites past env (Traced.evalWith S ev ex e) fun past' v => v.Known sites past' := by
  cases e with
  | literal id value => exact .pure fun _ _ => (Value.scalar_ofLiteral value).known
  | group id inner => exact hk.expr h hs
  | unary id op sign operand => exact (hk.expr (e := operand) h hs).bind fun _ v _ _ => .computes (op.computes _ _)
  | binary id op sign left right =>
      rw [Expr.references, usesSites_append, List.append_subset] at hs
      exact (hk.expr h hs.1).bind fun _ a h₁ _ => (hk.expr (h.mono h₁) hs.2).bind fun _ b _ _ =>
        .computes (op.computes _ _ _)
  | logical id op sign left right =>
      rw [Expr.references, usesSites_append, List.append_subset] at hs
      refine (hk.expr h hs.1).bind fun _ a h₁ ha => ?_
      split
      · exact .pure fun _ h₂ => ha.later h₂
      · exact hk.expr (h.mono h₁) hs.2
  | name ref =>
      unfold Traced.evalWith
      rw [hS]
      exact .read ref
  | assign target value =>
      rw [Expr.references, usesSites_append, List.append_subset] at hs
      unfold Traced.evalWith
      rw [hS]
      refine (hk.expr h hs.1).bind fun _ v _ hv => .of_formed fun hformed => ?_
      have hname : target.name.IsName := (hformed _ (hs.2 List.mem_cons_self)).mention
      exact (Keeps.write target hname.ordinary hv).bind fun _ _ h₂ _ =>
        .pure fun _ h₃ => hv.later (List.Subset.trans h₂ h₃)
  | call id callee closing arguments =>
      rw [Expr.references, usesSites_append, List.append_subset] at hs
      exact (hk.expr h hs.1).bind fun _ f h₁ hf => (hk.evalEach arguments (h.mono h₁) hs.2).bind fun _ _ h₂ hvs =>
        hk.callValue (hf.later h₂) closing hvs
  | get id object name => exact (hk.expr (e := object) h hs).bind fun _ o _ ho => property ho name
  | set id object name value =>
      rw [Expr.references, usesSites_append, List.append_subset] at hs
      refine (hk.expr h hs.2).bind fun _ o h₁ _ => ?_
      cases o with
      | instance_ id c =>
          exact (hk.expr (h.mono h₁) hs.1).bind fun _ v _ hv =>
            (Keeps.setField id name.text hv).bind fun _ _ h₃ _ =>
              .pure fun _ h₄ => hv.later (List.Subset.trans h₃ h₄)
      | _ => exact .fail _ _
  | this ref =>
      unfold Traced.evalWith
      rw [hS]
      exact .read ref
  | super ref method =>
      unfold Traced.evalWith
      rw [hS]
      exact (Keeps.readSuper ref method).bind fun _ p _ hp => superMethod hp.1 hp.2 method

/-! #### Statements -/

theorem repeatWhile {condition : Traced Value} {body : Traced Unit}
    (hc : ∀ past', past ⊆ past' → Keeps S sites past' env condition fun _ _ => True)
    (hb : ∀ past', past ⊆ past' → Keeps S sites past' env body fun _ _ => True) :
    ∀ (limit : Nat) (past' : History), past ⊆ past' →
      Keeps S sites past' env (Traced.repeatWhile condition body limit) fun _ _ => True
  | 0, _, _ => .throw trivial
  | limit + 1, past', h => by
      refine (hc past' h).bind fun past₁ v h₁ _ => ?_
      split
      · exact (hb past₁ (List.Subset.trans h h₁)).bind fun past₂ _ h₂ _ =>
          repeatWhile hc hb limit past₂ (List.Subset.trans h (List.Subset.trans h₁ h₂))
      · exact .pure fun _ _ => trivial

/-- The methods of a class that was made. -/
theorem methodTable_isMethod {c : Making} {outer : Option Activation} (hc : c.Happened past)
    (h : Enclosed past path c.moment.machine.env outer)
    (hs : FunDecl.sitesEach (c.construct :: path) c.methods ⊆ sites) :
    ∀ entry ∈ methodTable c.methods c.chain, entry.2.IsMethod sites past := by
  intro entry he
  obtain ⟨decl, hd, rfl⟩ := List.mem_map.mp (List.mem_reverse.mp he)
  have hdecl : decl.sites (c.construct :: path) ⊆ FunDecl.sitesEach (c.construct :: path) c.methods := by
    generalize c.methods = decls at hd
    induction decls with
    | nil => exact nomatch hd
    | cons d decls ih =>
        rw [FunDecl.sitesEach]
        rcases List.mem_cons.mp hd with rfl | hd
        · exact List.subset_append_left _ _
        · exact List.subset_append_of_subset_right _ (ih hd)
  exact .intro h hc ⟨hd, rfl⟩ (List.Subset.trans hdecl hs)

/-- The end of a class statement: the class is bound to its name. -/
theorem bindMade {c : Making} {outer : Option Activation} (hc : c.Happened past) (hn : c.name.IsName)
    (hp : ∀ k ∈ c.parent, k.Known sites past) (h : Enclosed past path c.moment.machine.env outer)
    (hs : FunDecl.sitesEach (c.construct :: path) c.methods ⊆ sites) :
    Keeps S sites past env (lift (Making.finish c)) fun _ _ => True := by
  refine .bind_lift .newId fun past' id h₁ _ => .define hn.ordinary ?_
  refine List.forall_mem_cons.mpr ⟨fun entry he =>
    (methodTable_isMethod hc h hs entry he).mono (List.Subset.refl _) h₁, fun body hb => ?_⟩
  cases hparent : c.parent with
  | none =>
      rw [hparent] at hb
      exact nomatch hb
  | some k =>
      rw [hparent] at hb
      exact Class.Known.mono (List.Subset.refl _) h₁ (hp k hparent) body hb

theorem readSuperclass_ok (hS : S.lookup = .byDistance) {ref : Reference NodeId} {m : Machine} {v : Value}
    (hv : Action.read .byDistance ref m = .ok v m) :
    readSuperclass S ref m = match v with
      | .cls k => .ok k m
      | _ => .error (.failed ⟨.superclassNotClass, ref.name.line⟩) m := by
  unfold readSuperclass
  rw [hS, bind_ok hv]
  cases v <;> rfl

/-- What a class statement finds as its superclass, which changes nothing. -/
theorem superclass_found (hS : S.lookup = .byDistance) {r : Recorder} (hr : r.Kept S sites past env)
    (name : Lexeme) (superclass : Option (Reference NodeId)) (methods : List (FunDecl NodeId)) :
    (∃ parent, superclass.mapM (readSuperclass S) r.machine = .ok parent r.machine ∧
      (∀ k ∈ parent, k.Known sites r.past) ∧
      Making.Inherits ⟨name, superclass, methods, parent, ⟨r.machine, .makes name superclass methods parent⟩⟩) ∨
    ∃ e, superclass.mapM (readSuperclass S) r.machine = .error e r.machine ∧ e.Known sites r.past := by
  cases superclass with
  | none => exact .inl ⟨none, rfl, nofun, rfl⟩
  | some ref =>
      have hread : Keeps S sites past env (lift (Action.read .byDistance ref)) fun past' v =>
        v.Known sites past' := .read ref
      have hknown := hread r hr
      unfold lift at hknown
      rcases read_still ref r.machine with ⟨v, hv⟩ | ⟨e, he⟩
      · rw [hv] at hknown
        have hsuper := readSuperclass_ok hS hv
        cases v with
        | cls k => exact .inl ⟨some k, bind_ok hsuper, fun _ hk => Option.some.inj hk ▸ hknown.2, k, rfl, hv⟩
        | _ => exact .inr ⟨_, bind_error hsuper, trivial⟩
      · rw [he] at hknown
        have hsuper : readSuperclass S ref r.machine = .error e r.machine := by
          unfold readSuperclass
          rw [hS]
          exact bind_error he
        exact .inr ⟨e, bind_error hsuper, hknown.2⟩

theorem defineClass (hS : S.lookup = .byDistance) (h : Enclosed past path env x) {name : Lexeme}
    {superclass : Option (Reference NodeId)} {methods : List (FunDecl NodeId)}
    (hs : Stmt.sites path (.cls name superclass methods) ⊆ sites) :
    Keeps S sites past env (Traced.defineClass S name superclass methods) fun _ _ => True := by
  intro r hr
  unfold Traced.defineClass
  rcases superclass_found hS hr name superclass methods with
    ⟨parent, hfound, hknown, hinherits⟩ | ⟨e, hfound, he⟩
  · have hlift : lift (superclass.mapM (readSuperclass S)) r = .ok parent r := congrArg (mapState _) hfound
    rw [bind_ok hlift]
    obtain ⟨hdeclares, hmethods⟩ := Stmt.sites_cls hs
    have hname : name.IsName := (hr.lexical.settled.formed _ hdeclares).mention
    let c : Making := ⟨name, superclass, methods, parent, ⟨r.machine, .makes name superclass methods parent⟩⟩
    have hrun : (Traced.note (.makes name superclass methods parent) >>= fun _ =>
        lift (bindClass name methods parent)) r = lift c.finish ⟨c.inside, c.moment :: r.past⟩ :=
      congrArg (mapState _) c.bindClass_eq
    have hsub : r.past ⊆ c.moment :: r.past := List.subset_cons_self _ _
    have hc : c.Happened (c.moment :: r.past) := ⟨List.mem_cons_self, rfl, hinherits⟩
    have hin : Enclosed (c.moment :: r.past) (path.declare name.text) c.moment.machine.env x :=
      (hr.env.symm ▸ h.declare name.text).mono (List.Subset.trans hr.past hsub)
    have hkept : Recorder.Kept S sites (c.moment :: r.past) env ⟨c.inside, c.moment :: r.past⟩ :=
      ⟨List.Subset.refl _, c.inside_env.trans hr.env, Making.inside_lexical hr.lexical hname hknown rfl⟩
    rw [hrun]
    refine Keeps.ends_mono (List.Subset.trans hr.past hsub) (bindMade hc hname (fun k hk => ?_) hin hmethods _ hkept)
    exact (hknown k hk).mono (List.Subset.refl _) hsub
  · have hlift : lift (superclass.mapM (readSuperclass S)) r = .error e r := congrArg (mapState _) hfound
    rw [bind_error hlift]
    exact ⟨hr, he⟩

theorem execWith (hS : S.lookup = .byDistance) (hk : KeptBy S sites ev ex) (h : Enclosed past path env x)
    {s : Stmt NodeId} (hs : s.sites path ⊆ sites) (hblock : ∀ body, s ≠ .block body) (limit : Nat) :
    Keeps S sites past env (Traced.execWith S ev ex limit s) fun _ _ => True := by
  cases s with
  | expression value => exact (hk.expr h hs).bind fun _ _ _ _ => .pure fun _ _ => trivial
  | print value => exact (hk.expr h hs).bind fun _ v _ _ => .print v
  | var name initializer =>
      obtain ⟨hd, hs⟩ := List.cons_subset.mp hs
      refine (hk.evalOptional (h.declare name.text) hs).bind fun _ v _ hv => .of_formed fun hformed => ?_
      have hname : name.IsName := (hformed _ hd).mention
      exact .define hname.ordinary hv
  | block body => exact absurd rfl (hblock body)
  | ite condition yes no =>
      cases no with
      | none =>
          obtain ⟨hc, hy⟩ := List.append_subset.mp hs
          refine (hk.expr h hc).bind fun _ v h₁ _ => ?_
          split
          · exact hk.stmt (h.mono h₁) hy
          · exact .pure fun _ _ => trivial
      | some no =>
          obtain ⟨hc, hs⟩ := List.append_subset.mp hs
          obtain ⟨hy, hn⟩ := List.append_subset.mp hs
          refine (hk.expr h hc).bind fun _ v h₁ _ => ?_
          split
          · exact hk.stmt (h.mono h₁) hy
          · exact hk.stmt ((h.declareAll yes.introduced).mono h₁) hn
  | «while» condition body =>
      obtain ⟨hc, hb⟩ := List.append_subset.mp hs
      exact repeatWhile (fun _ h₁ => (hk.expr (h.mono h₁) hc).imp fun _ _ _ => trivial)
        (fun _ h₁ => hk.stmt (h.mono h₁) hb) limit past (List.Subset.refl _)
  | function decl =>
      obtain ⟨hd, hs⟩ := List.cons_subset.mp hs
      refine .get fun m hm => .of_formed fun hformed => ?_
      have hname : decl.name.IsName := (hformed _ hd).mention
      have hf : (⟨decl, m.env, false⟩ : Closure).Known sites past := .plain (hm ▸ h.declare decl.name.text) hs
      exact .bind_lift (.newFunction hf) fun _ _ _ hv => .define hname.ordinary hv
  | ret keyword value =>
      obtain ⟨-, hs⟩ := List.cons_subset.mp hs
      exact (hk.evalOptional h hs).bind fun _ v _ hv => .throw hv
  | cls name superclass methods => exact defineClass hS h hs

/-- A block that is run: its frame is the one that the moment makes. -/
theorem execBlock (hk : KeptBy S sites ev ex) (h : Enclosed past path env x) {body : List (Stmt NodeId)}
    (hs : Stmt.sites path (.block body) ⊆ sites) (limit : Nat) :
    Keeps S sites past env (Traced.note (.executes (.block body)) >>= fun _ =>
      Traced.execWith S ev ex limit (.block body)) fun _ _ => True := by
  have hnest : Keeps S sites past env (Traced.note (.executes (.block body)) >>= fun _ =>
      lift (Action.nest [] env) >>= fun inside => Traced.within inside (Traced.runAll ex body)) fun _ _ => True := by
    refine .opens (fun _ _ hv => nomatch hv) trivial (fun _ _ => trivial) fun past' k h₁ hmem hwhat henv => ?_
    subst henv
    exact .within (hk.runAll body (.block [] (h.mono h₁) hmem hwhat) hs)
  -- the frame is opened in the chain that the machine has
  exact fun r hr => hr.env ▸ (hr.env ▸ hnest) r (hr.env ▸ hr)

end KeptBy

/-- Evaluation keeps what holds of recorders, with any amount of fuel. -/
theorem keeps_evaluation (hS : S.lookup = .byDistance) (sites : List Site) (fuel : Nat) :
    KeptBy S sites (Traced.eval S fuel) (Traced.exec S fuel) := by
  induction fuel with
  | zero => exact ⟨fun _ _ => .throw trivial, fun _ _ => .throw trivial⟩
  | succ fuel hk =>
      refine ⟨fun h hs => ?_, fun {_ _ _ _ s} h hs => ?_⟩
      · exact .note trivial (fun _ hr => hr.lawful hS h hs) (hk.evalWith hS h hs)
      · by_cases hblock : ∃ body, s = .block body
        · obtain ⟨body, rfl⟩ := hblock
          exact hk.execBlock h hs fuel
        · exact .note trivial (fun _ _ => trivial)
            (hk.execWith hS h hs (fun body hb => hblock ⟨body, hb⟩) fuel)

end Lox
